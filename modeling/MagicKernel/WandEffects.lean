import MagicKernel.WandModel

/-! What each operation of the wand subsystem does when it does not fault: strings, the process table,
and the states in which a call may end. -/

namespace MagicKernel.Wand

open FaultMachine BlockHeap

/-! ### Blocks -/

/-- What a block holds besides its links. -/
def Block.strip (b : Block) : Block := b.setLink ⟨0, 0⟩

theorem strip_setLink (l : Link) (b : Block) : (Linked.setLink l b).strip = b.strip := by
  cases b with
  | head l' => rfl
  | node l' secret => rfl
  | string bytes => rfl

theorem cells_of_head {h : Heap Block} {a : Addr} {l : Link}
    (ha : h.contents Block.strip a = some (.head l)) : ∃ l', h.cells a = some (.head l') := by
  obtain ⟨b, hb, hstrip⟩ := Option.map_eq_some_iff.1 ha
  cases b with
  | head l' => exact ⟨l', hb⟩
  | node l' secret => cases hstrip
  | string bytes => cases hstrip

theorem cells_of_node {h : Heap Block} {a : Addr} {l : Link} {secret : List UInt8}
    (ha : h.contents Block.strip a = some (.node l secret)) : ∃ l', h.cells a = some (.node l' secret) := by
  obtain ⟨b, hb, hstrip⟩ := Option.map_eq_some_iff.1 ha
  cases b with
  | head l' => cases hstrip
  | node l' secret' =>
      cases hstrip
      exact ⟨l', hb⟩
  | string bytes => cases hstrip

theorem cells_of_string {h : Heap Block} {a : Addr} {bytes : List UInt8}
    (ha : h.contents Block.strip a = some (.string bytes)) : h.cells a = some (.string bytes) := by
  obtain ⟨b, hb, hstrip⟩ := Option.map_eq_some_iff.1 ha
  cases b with
  | head l => cases hstrip
  | node l secret => cases hstrip
  | string bytes' =>
      cases hstrip
      exact hb

theorem kfree_ok {h h' : Heap Block} {a : Addr} (hfree : kfree a h = .ok h') :
    a = 0 ∧ h' = h ∨ a ≠ 0 ∧ h.cells a ≠ none ∧ h' = h.free a := by
  rw [kfree] at hfree
  split at hfree
  · rename_i ha
    cases hfree
    exact Or.inl ⟨ha, rfl⟩
  · rename_i ha
    cases hcell : h.cells a with
    | none =>
        rw [hcell] at hfree
        cases hfree
    | some b =>
        rw [hcell] at hfree
        cases hfree
        exact Or.inr ⟨ha, Option.some_ne_none b, rfl⟩

theorem kfree_of_cell {h : Heap Block} {a : Addr} (ha : h.cells a ≠ none) : kfree a h = .ok (h.free a) := by
  have hzero : a ≠ 0 := by
    rintro rfl
    exact ha h.null
  rw [kfree, if_neg hzero]
  cases hcell : h.cells a with
  | none => exact absurd hcell ha
  | some b => rfl

theorem loadNext_ok {h : Heap Block} {a x : Addr} (hload : loadNext h a = .ok x) : h.next a = some x := by
  rw [loadNext] at hload
  cases hnext : h.next a with
  | none =>
      rw [hnext] at hload
      cases hload
  | some y =>
      rw [hnext] at hload
      cases hload
      rfl

theorem loadSecret_ok {h : Heap Block} {a : Addr} {secret : List UInt8} (hload : loadSecret h a = .ok secret) :
    ∃ l, h.cells a = some (.node l secret) := by
  unfold loadSecret at hload
  split at hload
  · rename_i l secret' hcell
    cases hload
    exact ⟨l, hcell⟩
  · cases hload

theorem loadString_ok {h : Heap Block} {a : Addr} {bytes : List UInt8} (hload : loadString h a = .ok bytes) :
    h.cells a = some (.string bytes) := by
  unfold loadString at hload
  split at hload
  · rename_i bytes' hcell
    cases hload
    exact hcell
  · cases hload

theorem cell_of_next {h : Heap Block} {a x : Addr} (ha : h.next a = some x) : h.cells a ≠ none := by
  intro hcell
  rw [Heap.next, Heap.link, hcell] at ha
  cases ha

/-! ### Strings -/

/-- The string that a block holds: its bytes before the first NUL. -/
def text (bytes : List UInt8) : List UInt8 := bytes.takeWhile (· ≠ 0)

theorem text_zero (cs : List UInt8) : text (0 :: cs) = [] :=
  List.takeWhile_cons_of_neg (by decide)

theorem text_cons {c : UInt8} (hc : c ≠ 0) (cs : List UInt8) : text (c :: cs) = c :: text cs :=
  List.takeWhile_cons_of_pos (decide_eq_true hc)

theorem mem_tail_of_ne {c : UInt8} {cs : List UInt8} (h : 0 ∈ c :: cs) (hc : c ≠ 0) : 0 ∈ cs := by
  rcases List.mem_cons.1 h with h | h
  · exact absurd h.symm hc
  · exact h

/-- The bytes from the first on spell the string `w`, with a NUL at its end. -/
def Spells : Bytes → List UInt8 → Prop
  | src, [] => src 0 = some 0
  | src, c :: w => src 0 = some c ∧ c ≠ 0 ∧ Spells (fun i => src (i + 1)) w

theorem Spells.unique {src : Bytes} {w w' : List UInt8} (h : Spells src w) (h' : Spells src w') : w = w' := by
  induction w generalizing src w' with
  | nil =>
      cases w' with
      | nil => rfl
      | cons d w' => exact absurd (Option.some.inj (h.symm.trans h'.1)).symm h'.2.1
  | cons c w ih =>
      cases w' with
      | nil => exact absurd (Option.some.inj (h.1.symm.trans h')) h.2.1
      | cons d w' =>
          obtain rfl : c = d := Option.some.inj (h.1.symm.trans h'.1)
          rw [ih h.2.2 h'.2.2]

/-- A terminated block spells its string. -/
theorem spells_ofBlock {cs : List UInt8} (hcs : 0 ∈ cs) : Spells (ofBlock cs) (text cs) := by
  induction cs with
  | nil => cases hcs
  | cons c cs ih =>
      by_cases hc : c = 0
      · subst hc
        rw [text_zero]
        rfl
      · rw [text_cons hc]
        exact ⟨rfl, hc, ih (mem_tail_of_ne hcs hc)⟩

theorem text_of_spells {cs w : List UInt8} (h : Spells (ofBlock cs) w) : text cs = w := by
  induction w generalizing cs with
  | nil =>
      cases cs with
      | nil => cases h
      | cons c cs =>
          obtain rfl : c = 0 := Option.some.inj h
          exact text_zero cs
  | cons d w ih =>
      cases cs with
      | nil => cases h.1
      | cons c cs =>
          obtain ⟨hhead, hd, hrest⟩ := h
          obtain rfl : c = d := Option.some.inj hhead
          rw [text_cons hd, ih hrest]

theorem mem_of_spells {cs w : List UInt8} (h : Spells (ofBlock cs) w) : 0 ∈ cs := by
  induction w generalizing cs with
  | nil => exact List.mem_of_getElem? h
  | cons d w ih =>
      cases cs with
      | nil => cases h.1
      | cons c cs => exact List.mem_cons_of_mem c (ih h.2.2)

/-- A terminated block is compared without reading past the end of either string. -/
theorem strcmp_spells {cs w : List UInt8} {ct : Bytes} (hcs : 0 ∈ cs) (hct : Spells ct w) :
    strcmp cs ct = .ok (decide (text cs = w)) := by
  induction cs generalizing ct w with
  | nil => cases hcs
  | cons c cs ih =>
      cases w with
      | nil =>
          rw [strcmp, hct]
          dsimp only
          by_cases hc : c = 0
          · subst hc
            rw [if_neg (not_not_intro rfl), if_pos rfl, text_zero, decide_eq_true rfl]
          · rw [if_pos hc, text_cons hc, decide_eq_false (List.cons_ne_nil c _)]
      | cons d w =>
          obtain ⟨hhead, hd, hrest⟩ := hct
          rw [strcmp, hhead]
          dsimp only
          by_cases hcd : c = d
          · subst hcd
            rw [if_neg (not_not_intro rfl), if_neg hd, ih (mem_tail_of_ne hcs hd) hrest, text_cons hd]
            simp only [List.cons.injEq, true_and]
          · have hne : text (c :: cs) ≠ d :: w := by
              by_cases hc : c = 0
              · subst hc
                rw [text_zero]
                exact (List.cons_ne_nil d w).symm
              · rw [text_cons hc]
                exact fun heq => hcd (List.cons.inj heq).1
            rw [if_pos hcd, decide_eq_false hne]

/-- A copy that ends leaves the string that its source spells, in a block of the same size. -/
theorem strcpy_ok {dst bytes : List UInt8} {src : Bytes} (h : strcpy dst src = .ok bytes) :
    0 ∈ bytes ∧ bytes.length = dst.length ∧ Spells src (text bytes) := by
  induction dst generalizing src bytes with
  | nil =>
      rw [strcpy] at h
      cases hsrc : src 0 with
      | none => rw [hsrc] at h; cases h
      | some c => rw [hsrc] at h; cases h
  | cons d dst ih =>
      rw [strcpy] at h
      cases hsrc : src 0 with
      | none => rw [hsrc] at h; cases h
      | some c =>
          rw [hsrc] at h
          dsimp only at h
          split at h
          · rename_i hc
            cases h
            rw [text_zero]
            exact ⟨List.mem_cons_self, rfl, hsrc.trans (congrArg some hc)⟩
          · rename_i hc
            obtain ⟨cs, hcs, heq⟩ := bind_eq_ok.1 h
            cases heq
            obtain ⟨hmem, hlen, hspells⟩ := ih hcs
            rw [text_cons hc]
            exact ⟨List.mem_cons_of_mem c hmem, congrArg (· + 1) hlen, hsrc, hc, hspells⟩

/-- A string is copied into a block that has room for it and its NUL. -/
theorem strcpy_of_spells {dst w : List UInt8} {src : Bytes} (hsrc : Spells src w) (hlen : w.length < dst.length) :
    ∃ bytes, strcpy dst src = .ok bytes := by
  induction w generalizing src dst with
  | nil =>
      cases dst with
      | nil => exact absurd hlen (Nat.not_lt_zero _)
      | cons d dst =>
          rw [strcpy, hsrc]
          exact ⟨_, rfl⟩
  | cons c w ih =>
      obtain ⟨hhead, hc, hrest⟩ := hsrc
      cases dst with
      | nil => exact absurd hlen (Nat.not_lt_zero _)
      | cons d dst =>
          obtain ⟨bytes, hbytes⟩ := ih hrest (Nat.lt_of_succ_lt_succ hlen)
          rw [strcpy, hhead]
          dsimp only
          rw [if_neg hc, hbytes]
          exact ⟨c :: bytes, rfl⟩

theorem length_text_lt {cs : List UInt8} (hcs : 0 ∈ cs) : (text cs).length < cs.length := by
  induction cs with
  | nil => cases hcs
  | cons c cs ih =>
      by_cases hc : c = 0
      · subst hc
        rw [text_zero]
        exact Nat.succ_pos _
      · rw [text_cons hc]
        exact Nat.succ_lt_succ (ih (mem_tail_of_ne hcs hc))

theorem secretLen_le (secret : Nat → UInt8) : secretLen secret ≤ secretMaxsize := by
  rw [secretLen]
  split
  · rename_i i hi
    exact List.mem_range.1 (List.mem_of_find?_eq_some hi)
  · exact le_rfl

/-! ### The process table -/

/-- A task is live while it is visible and has not exited. -/
def State.Live (s : State) (p : TaskId) : Prop := s.Visible p ∧ (s.task p).exited = false

/-- Every hashed task is in use and in the chain of its own process number. -/
def Hashed (s : State) : Prop :=
  ∀ k p, p ∈ s.pidhash k → s.inUse p = true ∧ pidHashfn (s.task p).pid = k

theorem visible_of_find {s : State} {pid : Int32} {p : TaskId} (h : findTaskByPid s pid = some p) :
    s.Visible p := by
  unfold findTaskByPid at h
  have hpid : (s.task p).pid = pid := by simpa only [decide_eq_true_eq] using List.find?_some h
  rw [State.Visible, hpid]
  exact List.mem_of_find?_eq_some h

theorem not_mem_of_unused {s : State} (hhashed : Hashed s) {p : TaskId} (hp : s.inUse p = false)
    (k : Int32) : p ∉ s.pidhash k := by
  intro hmem
  have huse := (hhashed k p hmem).1
  rw [hp] at huse
  cases huse

/-- From `s` to `t` no task but `p` changes, becomes visible or leaves the table. -/
structure ChangesOnly (p : TaskId) (s t : State) : Prop where
  hashed : Hashed t
  visible : ∀ q, q ≠ p → (t.Visible q ↔ s.Visible q)
  task : ∀ q, q ≠ p → t.task q = s.task q

theorem visible_modTask {s : State} {p : TaskId} {f : Task → Task} (hf : ∀ t, (f t).pid = t.pid)
    (heap : Heap Block) (q : TaskId) : ({ s with heap := heap }.modTask p f).Visible q ↔ s.Visible q := by
  have hpid : (({ s with heap := heap }.modTask p f).task q).pid = (s.task q).pid := by
    by_cases hq : q = p
    · subst hq
      exact (congrArg Task.pid (Function.update_self ..)).trans (hf _)
    · exact congrArg Task.pid (Function.update_of_ne hq ..)
  rw [State.Visible, State.Visible, hpid]
  rfl

theorem task_modTask_self (s : State) (p : TaskId) (f : Task → Task) :
    (s.modTask p f).task p = f (s.task p) := Function.update_self ..

theorem task_modTask_of_ne {p q : TaskId} (hq : q ≠ p) (s : State) (f : Task → Task) :
    (s.modTask p f).task q = s.task q := Function.update_of_ne hq ..

theorem changesOnly_modTask {s : State} {p : TaskId} {f : Task → Task} (hhashed : Hashed s)
    (hf : ∀ t, (f t).pid = t.pid) (heap : Heap Block) :
    ChangesOnly p s ({ s with heap := heap }.modTask p f) := by
  refine ⟨?_, fun q _ => visible_modTask hf heap q, fun q hq => task_modTask_of_ne hq _ f⟩
  intro k q hq
  have hmem : q ∈ s.pidhash k := hq
  obtain ⟨huse, hhash⟩ := hhashed k q hmem
  refine ⟨huse, ?_⟩
  by_cases hqp : q = p
  · subst hqp
    rw [task_modTask_self, hf]
    exact hhash
  · rw [task_modTask_of_ne hqp]
    exact hhash

/-! ### Calls that return -/

theorem both_wands {s : State} {p q : TaskId}
    (h : ¬ ((s.task p).holdingWand = false ∨ (s.task q).holdingWand = false)) :
    (s.task p).holdingWand = true ∧ (s.task q).holdingWand = true :=
  ⟨eq_true_of_ne_false fun hp => h (Or.inl hp), eq_true_of_ne_false fun hq => h (Or.inr hq)⟩

/-- An attack on `target` that passes all checks. -/
structure Lands (s : State) (attacker : TaskId) (pid : Int32) (target : TaskId) : Prop where
  found : findTaskByPid s pid = some target
  armed : (s.task attacker).holdingWand = true
  targetArmed : (s.task target).holdingWand = true
  healthy : (s.task attacker).health ≠ 0
  targetHealthy : (s.task target).health ≠ 0
  other : attacker ≠ target
  unknown : secretStolen s.heap (s.task target).secretsPtr (s.task attacker).mySecret = .ok false

instance (s : State) (attacker : TaskId) (pid : Int32) (target : TaskId) :
    Decidable (Lands s attacker pid target) :=
  decidable_of_iff (findTaskByPid s pid = some target ∧ (s.task attacker).holdingWand = true ∧
      (s.task target).holdingWand = true ∧ (s.task attacker).health ≠ 0 ∧ (s.task target).health ≠ 0 ∧
      attacker ≠ target ∧
      secretStolen s.heap (s.task target).secretsPtr (s.task attacker).mySecret = .ok false)
    ⟨fun ⟨h₁, h₂, h₃, h₄, h₅, h₆, h₇⟩ => ⟨h₁, h₂, h₃, h₄, h₅, h₆, h₇⟩,
      fun ⟨h₁, h₂, h₃, h₄, h₅, h₆, h₇⟩ => ⟨h₁, h₂, h₃, h₄, h₅, h₆, h₇⟩⟩

/-- The health that an attack with a wand of the given power leaves. -/
def hit (health power : Int32) : Int32 := if health - power > 0 then health - power else 0

theorem hit_nonneg (health power : Int32) : 0 ≤ hit health power := by
  unfold hit
  split
  · rename_i hpos
    exact Int32.le_of_lt hpos
  · exact Int32.le_refl 0

/-- An attack is refused and changes nothing, or it lands. -/
theorem sysMagicAttack_cases {attacker : TaskId} {pid : Int32} {s t : State} {r : Int}
    (h : sysMagicAttack attacker pid s = .ok (r, t)) :
    r < 0 ∧ t = s ∨ ∃ target, Lands s attacker pid target ∧
      r = (hit (s.task target).health (s.task attacker).power).toInt ∧
      t = s.modTask target fun u => { u with health := hit (s.task target).health (s.task attacker).power } := by
  unfold sysMagicAttack at h
  cases hfind : findTaskByPid s pid with
  | none =>
      rw [hfind] at h
      cases h
      exact Or.inl ⟨by decide, rfl⟩
  | some target =>
      rw [hfind] at h
      dsimp only at h
      split at h
      · cases h
        exact Or.inl ⟨by decide, rfl⟩
      rename_i hwands
      split at h
      · cases h
        exact Or.inl ⟨by decide, rfl⟩
      rename_i hhealth
      split at h
      · cases h
        exact Or.inl ⟨by decide, rfl⟩
      rename_i hother
      obtain ⟨stolen, hstolen, h⟩ := bind_eq_ok.1 h
      split at h
      · cases h
        exact Or.inl ⟨by decide, rfl⟩
      · rename_i hunknown
        cases h
        obtain rfl : stolen = false := eq_false_of_ne_true hunknown
        obtain ⟨harmed, htarget⟩ := both_wands hwands
        obtain ⟨hhealthy, hhealthy'⟩ := not_or.1 hhealth
        exact Or.inr ⟨target, ⟨hfind, harmed, htarget, hhealthy, hhealthy', hother, hstolen⟩, rfl, rfl⟩

theorem Lands.attack {s : State} {attacker target : TaskId} {pid : Int32} (h : Lands s attacker pid target) :
    sysMagicAttack attacker pid s = .ok ((hit (s.task target).health (s.task attacker).power).toInt,
      s.modTask target fun u => { u with health := hit (s.task target).health (s.task attacker).power }) := by
  have hwands : ¬ ((s.task attacker).holdingWand = false ∨ (s.task target).holdingWand = false) := by
    rw [h.armed, h.targetArmed]
    decide
  have hhealth : ¬ ((s.task attacker).health = 0 ∨ (s.task target).health = 0) :=
    not_or.2 ⟨h.healthy, h.targetHealthy⟩
  unfold sysMagicAttack
  rw [h.found]
  dsimp only
  rw [if_neg hwands, if_neg hhealth, if_neg h.other, h.unknown]
  rfl

/-- An attack changes nothing but the health of its target. -/
theorem sysMagicAttack_ok {attacker : TaskId} {pid : Int32} {s t : State} {r : Int}
    (h : sysMagicAttack attacker pid s = .ok (r, t)) :
    t = s ∨ ∃ target health, findTaskByPid s pid = some target ∧
      t = s.modTask target fun u => { u with health := health } := by
  rcases sysMagicAttack_cases h with ⟨-, rfl⟩ | ⟨target, hlands, -, rfl⟩
  · exact Or.inl rfl
  · exact Or.inr ⟨target, _, hlands.found, rfl⟩

/-- The comparison finds the string that was copied. -/
def SecretReads.Agree (r : SecretReads) : Prop :=
  ∀ w, Spells (ofUser r.copy) w → Spells (ofUser r.compare) w

/-- The state in which `sys_magic_get_wand` succeeds, with the copied secret in `bytes`. -/
def withWand (p : TaskId) (power : Int32) (mem : Addr) (bytes : List UInt8) (s : State) : State :=
  { s with heap := s.heap.alloc mem (.string bytes) }.modTask p fun u =>
    { u with mySecret := mem, power := power, holdingWand := true, health := 100 }

/-- How `sys_magic_get_wand` may end: refused, without memory, with a wand, or with a secret that the user
changed under it. -/
theorem sysMagicGetWand_cases {p : TaskId} {power : Int32} {secret : Option SecretReads} {mem : Addr}
    {junk : Nat → UInt8} {s t : State} {x : Int} (h : sysMagicGetWand p power secret mem junk s = .ok (x, t)) :
    x < 0 ∧ t = s ∨ ∃ r, secret = some r ∧ (s.task p).holdingWand = false ∧ r.first ≠ 0 ∧
      (mem = 0 ∧ x < 0 ∧ t = s.modTask p (fun u => { u with mySecret := 0 }) ∨
      mem ≠ 0 ∧ ∃ bytes, 0 ∈ bytes ∧ bytes.length = secretLen r.scan ∧ Spells (ofUser r.copy) (text bytes) ∧
        (x = 0 ∧ t = withWand p power mem bytes s ∨
        ¬ r.Agree ∧ x < 0 ∧ t = { s with heap := (s.heap.alloc mem (.string bytes)).free mem }.modTask p
          fun u => { u with mySecret := mem })) := by
  unfold sysMagicGetWand at h
  split at h
  · cases h
    exact Or.inl ⟨by decide, rfl⟩
  rename_i hwand
  have hwand : (s.task p).holdingWand = false := eq_false_of_ne_true hwand
  cases secret with
  | none =>
      cases h
      exact Or.inl ⟨by decide, rfl⟩
  | some r =>
      dsimp only at h
      split at h
      · cases h
        exact Or.inl ⟨by decide, rfl⟩
      rename_i hfirst
      refine Or.inr ⟨r, rfl, hwand, hfirst, ?_⟩
      split at h
      · rename_i hmem
        subst hmem
        cases h
        exact Or.inl ⟨rfl, by decide, rfl⟩
      rename_i hmem
      obtain ⟨bytes, hcopy, h⟩ := bind_eq_ok.1 h
      obtain ⟨hzero, hlen, hspells⟩ := strcpy_ok hcopy
      rw [List.length_map, List.length_range] at hlen
      obtain ⟨same, hsame, h⟩ := bind_eq_ok.1 h
      refine Or.inr ⟨hmem, bytes, hzero, hlen, hspells, ?_⟩
      split at h
      · cases h
        dsimp only [State.modTask]
        rw [Function.update_self, Function.update_idem, Heap.modify_alloc hmem]
        exact Or.inl ⟨rfl, rfl⟩
      · rename_i hdiff
        obtain ⟨heap, hfree, h⟩ := bind_eq_ok.1 h
        dsimp only [State.modTask] at hfree
        rw [Heap.modify_alloc hmem, kfree_of_cell (by
          rw [Heap.cells_alloc hmem, Function.update_self]
          exact Option.some_ne_none _)] at hfree
        cases hfree
        cases h
        refine Or.inr ⟨fun hagree => ?_, by decide, rfl⟩
        rw [strcmp_spells hzero (hagree _ hspells), decide_eq_true rfl] at hsame
        cases hsame
        exact hdiff rfl

theorem sysMagicGetWand_of_wand {s : State} {p : TaskId} (hwand : (s.task p).holdingWand = true) (power : Int32)
    (secret : Option SecretReads) (mem : Addr) (junk : Nat → UInt8) :
    sysMagicGetWand p power secret mem junk s = .ok (-EEXIST, s) := by
  unfold sysMagicGetWand
  rw [if_pos hwand]

/-- The ways `sys_magic_get_wand` may end, as far as memory and tasks are concerned. -/
inductive GotWand (p : TaskId) (power : Int32) (mem : Addr) (s : State) : State → Prop
  | refused : GotWand p power mem s s
  | noMemory (hwand : (s.task p).holdingWand = false) :
      GotWand p power mem s (s.modTask p fun u => { u with mySecret := 0 })
  | wand (hwand : (s.task p).holdingWand = false) (hmem : mem ≠ 0) (bytes : List UInt8) (hzero : 0 ∈ bytes)
      (hlen : bytes.length ≤ secretMaxsize) :
      GotWand p power mem s ({ s with heap := s.heap.alloc mem (.string bytes) }.modTask p fun u =>
        { u with mySecret := mem, power := power, holdingWand := true, health := 100 })
  | changed (hwand : (s.task p).holdingWand = false) (hmem : mem ≠ 0) (bytes : List UInt8) :
      GotWand p power mem s ({ s with heap := (s.heap.alloc mem (.string bytes)).free mem }.modTask p
        fun u => { u with mySecret := mem })

theorem sysMagicGetWand_ok {p : TaskId} {power : Int32} {secret : Option SecretReads} {mem : Addr}
    {junk : Nat → UInt8} {s t : State} {x : Int}
    (h : sysMagicGetWand p power secret mem junk s = .ok (x, t)) : GotWand p power mem s t := by
  rcases sysMagicGetWand_cases h with ⟨-, rfl⟩ |
    ⟨r, -, hwand, -, ⟨-, -, rfl⟩ | ⟨hmem, bytes, hzero, hlen, -, hend⟩⟩
  · exact .refused
  · exact .noMemory hwand
  · rcases hend with ⟨-, rfl⟩ | ⟨-, -, rfl⟩
    · exact .wand hwand hmem bytes hzero (hlen ▸ secretLen_le r.scan)
    · exact .changed hwand hmem bytes

/-- A reading of the mind of `victim` that passes all checks. -/
structure Steals (s : State) (thief : TaskId) (pid : Int32) (mem : Addr) (victim : TaskId) : Prop where
  found : findTaskByPid s pid = some victim
  other : victim ≠ thief
  armed : (s.task thief).holdingWand = true
  victimArmed : (s.task victim).holdingWand = true
  unknown : secretStolen s.heap (s.task thief).secretsPtr (s.task victim).mySecret = .ok false
  memory : mem ≠ 0

/-- A reading of minds changes nothing, or it appends the secret of its victim to the reader's list. -/
theorem sysMagicLegilimens_cases {attacker : TaskId} {pid : Int32} {mem : Addr} {junk : Nat → UInt8}
    {s t : State} {r : Int} (h : sysMagicLegilimens attacker pid mem junk s = .ok (r, t)) :
    t = s ∧ (r < 0 ∨ findTaskByPid s pid = some attacker) ∨
    ∃ victim mine secret heap, Steals s attacker pid mem victim ∧ r = 0 ∧
      s.heap.cells (s.task victim).mySecret = some (.string mine) ∧ Spells (ofBlock mine) (text secret) ∧
      0 ∈ secret ∧ secret.length = secretMaxsize ∧
      (s.heap.alloc mem (.node ⟨0, 0⟩ secret)).listAddTail mem (s.task attacker).secretsPtr = some heap ∧
      t = { s with heap := heap } := by
  unfold sysMagicLegilimens at h
  cases hfind : findTaskByPid s pid with
  | none =>
      rw [hfind] at h
      cases h
      exact Or.inl ⟨rfl, Or.inl (by decide)⟩
  | some target =>
      rw [hfind] at h
      dsimp only at h
      split at h
      · rename_i hself
        cases h
        exact Or.inl ⟨rfl, Or.inr (congrArg some hself)⟩
      rename_i hother
      split at h
      · cases h
        exact Or.inl ⟨rfl, Or.inl (by decide)⟩
      rename_i hwands
      obtain ⟨stolen, hstolen, h⟩ := bind_eq_ok.1 h
      split at h
      · cases h
        exact Or.inl ⟨rfl, Or.inl (by decide)⟩
      rename_i hunknown
      obtain rfl : stolen = false := eq_false_of_ne_true hunknown
      split at h
      · cases h
        exact Or.inl ⟨rfl, Or.inl (by decide)⟩
      rename_i hmem
      obtain ⟨mine, hmine, h⟩ := bind_eq_ok.1 h
      obtain ⟨secret, hcopy, h⟩ := bind_eq_ok.1 h
      obtain ⟨hzero, hlen, hspells⟩ := strcpy_ok hcopy
      rw [List.length_map, List.length_range] at hlen
      split at h
      · cases h
      · rename_i heap hadd
        cases h
        obtain ⟨harmed, htarget⟩ := both_wands hwands
        exact Or.inr ⟨target, mine, secret, heap, ⟨hfind, hother, harmed, htarget, hstolen, hmem⟩, rfl,
          loadString_ok hmine, hspells, hzero, hlen, hadd, rfl⟩

/-- The other task whose mind a successful call reads. -/
def victimOf (s : State) (e : Event) : Option TaskId :=
  match e.call with
  | .legilimens pid mem junk =>
    match sysMagicLegilimens e.current pid mem junk s with
    | .ok (r, _) => if r = 0 then (findTaskByPid s pid).filter (· ≠ e.current) else none
    | .error _ => none
  | _ => none

theorem victimOf_of_refused {attacker : TaskId} {pid : Int32} {mem : Addr} {junk : Nat → UInt8} {s t : State} {r : Int}
    (h : sysMagicLegilimens attacker pid mem junk s = .ok (r, t))
    (hrefused : r < 0 ∨ findTaskByPid s pid = some attacker) :
    victimOf s ⟨attacker, .legilimens pid mem junk⟩ = none := by
  unfold victimOf
  dsimp only
  rw [h]
  dsimp only
  rcases hrefused with hneg | hself
  · rw [if_neg (by omega)]
  · split
    · rw [hself]
      simp only [Option.filter, ne_eq, not_true_eq_false, decide_false, Bool.false_eq_true, if_false]
    · rfl

theorem victimOf_of_steals {thief victim : TaskId} {pid : Int32} {mem : Addr} {junk : Nat → UInt8} {s t : State}
    (h : sysMagicLegilimens thief pid mem junk s = .ok (0, t)) (hsteals : Steals s thief pid mem victim) :
    victimOf s ⟨thief, .legilimens pid mem junk⟩ = some victim := by
  unfold victimOf
  dsimp only
  rw [h]
  dsimp only
  rw [if_pos rfl, hsteals.found]
  simp only [Option.filter, ne_eq, hsteals.other, not_false_eq_true, decide_true, if_true]

theorem sysMagicLegilimens_ok {attacker : TaskId} {pid : Int32} {mem : Addr} {junk : Nat → UInt8}
    {s t : State} {r : Int} (h : sysMagicLegilimens attacker pid mem junk s = .ok (r, t)) :
    t = s ∨ ∃ secret heap, mem ≠ 0 ∧ 0 ∈ secret ∧ secret.length = secretMaxsize ∧
      (s.heap.alloc mem (.node ⟨0, 0⟩ secret)).listAddTail mem (s.task attacker).secretsPtr = some heap ∧
      t = { s with heap := heap } := by
  rcases sysMagicLegilimens_cases h with ⟨rfl, -⟩ |
    ⟨victim, mine, secret, heap, hsteals, -, -, -, hzero, hlen, hadd, rfl⟩
  · exact Or.inl rfl
  · exact Or.inr ⟨secret, heap, hsteals.memory, hzero, hlen, hadd, rfl⟩

/-- A clock request changes nothing but the two times of the caller. -/
theorem sysMagicClock_eq (p : TaskId) (seconds jiffies : UInt32) (s : State) :
    (sysMagicClock p seconds jiffies s).2 = s ∨ ∃ magicTime magicCallTime, (sysMagicClock p seconds jiffies s).2 =
      s.modTask p fun u => { u with magicTime := magicTime, magicCallTime := magicCallTime } := by
  unfold sysMagicClock
  split
  · exact Or.inl rfl
  · exact Or.inr ⟨_, _, rfl⟩

/-! ### Processes -/

/-- The task structure that a fork with memory for the list head makes visible. -/
def childTask (parent : Task) (pid : Int32) (mem : Addr) : Task :=
  { parent with
    pid := pid, exited := false, holdingWand := false, mySecret := 0, secretsPtr := mem, magicTime := 0,
    magicCallTime := 0 }

theorem doFork_child {mem : Addr} (hmem : mem ≠ 0) (parent child : TaskId) (pid : Int32) (s : State) :
    (doFork parent child pid mem s).2 =
      { task := Function.update s.task child (childTask (s.task parent) pid mem)
        inUse := Function.update s.inUse child true
        pidhash := Function.update s.pidhash (pidHashfn pid) (child :: s.pidhash (pidHashfn pid))
        heap := s.heap.alloc mem (.head ⟨mem, mem⟩) } := by
  rw [doFork, if_neg hmem]
  dsimp only [hashPid, State.modTask]
  rw [Function.update_idem, Function.update_self, Function.update_self]
  rfl

section Table

variable {s : State} (hhashed : Hashed s)
include hhashed

/-- A fork without memory for the list head leaves a task structure that nobody can reach. -/
theorem changesOnly_noMemory (parent : TaskId) {child : TaskId} (pid : Int32)
    (hchild : s.inUse child = false) : ChangesOnly child s (doFork parent child pid 0 s).2 := by
  have htable : ((doFork parent child pid 0 s).2).pidhash = s.pidhash := rfl
  have htask : ∀ q, q ≠ child → ((doFork parent child pid 0 s).2).task q = s.task q := fun q hq =>
    Function.update_of_ne hq ..
  refine ⟨?_, fun q hq => ?_, htask⟩
  · intro k q hq
    have hne : q ≠ child := by
      rintro rfl
      exact not_mem_of_unused hhashed hchild k hq
    obtain ⟨huse, hhash⟩ := hhashed k q hq
    rw [htask q hne]
    exact ⟨(Function.update_of_ne hne ..).trans huse, hhash⟩
  · rw [State.Visible, State.Visible, htable, htask q hq]

theorem changesOnly_child {mem : Addr} (hmem : mem ≠ 0) (parent : TaskId) {child : TaskId} (pid : Int32)
    (hchild : s.inUse child = false) : ChangesOnly child s (doFork parent child pid mem s).2 := by
  -- The chain of the new process number gets a new head.
  have htable : ∀ k q, q ≠ child → (q ∈ Function.update s.pidhash (pidHashfn pid)
      (child :: s.pidhash (pidHashfn pid)) k ↔ q ∈ s.pidhash k) := by
    intro k q hq
    by_cases hk : k = pidHashfn pid
    · rw [hk, Function.update_self, List.mem_cons, or_iff_right hq]
    · rw [Function.update_of_ne hk]
  rw [doFork_child hmem]
  refine ⟨?_, fun q hq => ?_, fun q hq => Function.update_of_ne hq ..⟩
  · intro k q hq
    dsimp only at hq ⊢
    by_cases hqc : q = child
    · subst hqc
      rw [Function.update_self, Function.update_self]
      refine ⟨rfl, ?_⟩
      by_contra hk
      have hk' : k ≠ pidHashfn pid := Ne.symm hk
      rw [Function.update_of_ne hk'] at hq
      exact not_mem_of_unused hhashed hchild k hq
    · rw [Function.update_of_ne hqc, Function.update_of_ne hqc]
      exact hhashed k q ((htable k q hqc).1 hq)
  · rw [State.Visible, State.Visible]
    dsimp only
    rw [Function.update_of_ne hq]
    exact htable _ q hq

/-- A released task leaves the table. -/
theorem mem_releaseTask {p q : TaskId} {k : Int32} :
    q ∈ (releaseTask p s).pidhash k ↔ q ≠ p ∧ q ∈ s.pidhash k := by
  have htable : (releaseTask p s).pidhash = Function.update s.pidhash (pidHashfn (s.task p).pid)
      ((s.pidhash (pidHashfn (s.task p).pid)).filter (· ≠ p)) := rfl
  rw [htable]
  by_cases hk : k = pidHashfn (s.task p).pid
  · subst hk
    rw [Function.update_self, List.mem_filter, decide_eq_true_eq]
    exact and_comm
  · rw [Function.update_of_ne hk]
    constructor
    · intro hq
      refine ⟨?_, hq⟩
      rintro rfl
      exact hk (hhashed k q hq).2.symm
    · exact And.right

theorem changesOnly_releaseTask (p : TaskId) : ChangesOnly p s (releaseTask p s) := by
  have htask : ∀ q, q ≠ p → (releaseTask p s).task q = s.task q := fun q hq => Function.update_of_ne hq ..
  refine ⟨?_, fun q hq => ?_, htask⟩
  · intro k q hq
    obtain ⟨hqp, hq⟩ := (mem_releaseTask hhashed).1 hq
    obtain ⟨huse, hhash⟩ := hhashed k q hq
    rw [htask q hqp]
    exact ⟨(Function.update_of_ne hqp ..).trans huse, hhash⟩
  · rw [State.Visible, State.Visible, mem_releaseTask hhashed, htask q hq]
    exact and_iff_right hq

end Table

theorem doExit_task {p : TaskId} {s t : State} (h : doExit p s = .ok t) :
    ∃ heap, t = { s with heap := heap }.modTask p fun u => { u with exited := true } := by
  obtain ⟨h₀, -, h⟩ := bind_eq_ok.1 h
  obtain ⟨first, -, h⟩ := bind_eq_ok.1 h
  obtain ⟨h₁, -, h⟩ := bind_eq_ok.1 h
  obtain ⟨h₂, -, h⟩ := bind_eq_ok.1 h
  split at h
  · cases h
  split at h
  · cases h
  cases h
  exact ⟨h₂, rfl⟩

theorem not_live_of_exit {p : TaskId} {s t : State} (h : doExit p s = .ok t) : ¬ t.Live p := by
  obtain ⟨heap, rfl⟩ := doExit_task h
  rintro ⟨-, hlive⟩
  rw [task_modTask_self] at hlive
  cases hlive

/-- The loop of `do_exit` frees the entries of the list, each once, and touches nothing else but the
links of the head. -/
theorem freeSecrets_ring {h : Heap Block} {head first : Addr} {xs : List Addr} {fuel : Nat}
    (hring : h.Ring head xs) (hfuel : xs.length ≤ fuel) (hfirst : h.next head = some first) :
    ∃ h', freeSecrets head fuel first h = .ok h' ∧ h'.Ring head [] ∧ (∀ a ∈ xs, h'.cells a = none) ∧
      ∀ a, a ∉ head :: xs → Heap.SameAt Block.strip h h' a := by
  induction xs generalizing h first fuel with
  | nil =>
      obtain rfl : head = first := Option.some.inj (hring.chain.1.symm.trans hfirst)
      refine ⟨h, ?_, hring, fun a ha => absurd ha List.not_mem_nil, fun a _ => Heap.SameAt.of_cells rfl⟩
      cases fuel with
      | zero => rw [freeSecrets, if_pos rfl]
      | succ fuel => rw [freeSecrets, if_pos rfl]
  | cons x xs ih =>
      obtain rfl : x = first := Option.some.inj (hring.chain.1.symm.trans hfirst)
      obtain ⟨hhead, hnodup⟩ := List.nodup_cons.1 hring.nodup
      have hx : x ≠ head := fun heq => hhead (heq ▸ List.mem_cons_self)
      have hxs : x ∉ head :: xs := by
        intro hmem
        rcases List.mem_cons.1 hmem with heq | hmem
        · exact hx heq
        · exact (List.nodup_cons.1 hnodup).1 hmem
      cases fuel with
      | zero => exact absurd hfuel (Nat.not_succ_le_zero _)
      | succ fuel =>
          obtain ⟨h₁, after, hdel, hafter, hmem, hring₁, hrelinked⟩ := hring.delFirst
          have hcell : h₁.cells x ≠ none := by
            apply cell_of_next (x := after)
            rw [hrelinked.next, Function.update_of_ne hx]
            exact hafter
          have hnext : (h₁.free x).next head = some after := by
            rw [Heap.next_free, Function.update_of_ne hx.symm, hrelinked.next, Function.update_self]
          obtain ⟨h', hrest, hring', hfreed, hsame⟩ := ih (hring₁.free hxs) (Nat.le_of_succ_le_succ hfuel) hnext
          refine ⟨h', ?_, hring', ?_, ?_⟩
          · rw [freeSecrets, if_neg hx, loadNext, hafter, hdel]
            dsimp only [bind, Except.bind]
            rw [kfree_of_cell hcell]
            exact hrest
          · intro a ha
            rcases List.mem_cons.1 ha with rfl | ha
            · have hnone := (hsame a hxs).contents
              rw [Heap.contents_free, Function.update_self] at hnone
              exact Option.map_eq_none_iff.1 hnone
            · exact hfreed a ha
          · intro a ha
            have hax : a ≠ x := fun heq => ha (heq ▸ List.mem_cons_of_mem _ List.mem_cons_self)
            have hah : a ≠ head := fun heq => ha (heq ▸ List.mem_cons_self)
            have hin : a ∉ head :: xs := by
              intro hin
              rcases List.mem_cons.1 hin with heq | hin
              · exact hah heq
              · exact ha (List.mem_cons_of_mem _ (List.mem_cons_of_mem _ hin))
            have haa : a ≠ after := by
              rintro rfl
              rcases List.mem_append.1 hmem with hmem | hmem
              · exact hin (List.mem_cons_of_mem _ hmem)
              · exact hah (List.mem_singleton.1 hmem)
            have hsame₁ : Heap.SameAt Block.strip h h₁ a :=
              hrelinked.sameAt strip_setLink (Function.update_of_ne hah ..) (Function.update_of_ne haa ..)
            exact (hsame₁.trans (Heap.sameAt_free _ _ hax)).trans (hsame a hin)

end MagicKernel.Wand
