import MagicKernel.WandEffects

/-! Which blocks belong to which task. A live task keeps a list head, the entries of its list of stolen
secrets and, with a wand, its secret; the blocks of different live tasks are apart. Every call changes
the blocks of one task only, so the invariant rests on one lemma about such changes. -/

namespace MagicKernel.Wand

open FaultMachine BlockHeap

/-- The blocks of a task with the list entries `xs`. -/
def Task.blocks (t : Task) (xs : List Addr) : List Addr :=
  (t.secretsPtr :: xs) ++ if t.holdingWand then [t.mySecret] else []

theorem Task.mem_blocks {t : Task} {xs : List Addr} {a : Addr} :
    a ∈ t.blocks xs ↔ a ∈ t.secretsPtr :: xs ∨ t.holdingWand = true ∧ a = t.mySecret := by
  rw [blocks, List.mem_append]
  cases t.holdingWand with
  | false => simp only [Bool.false_eq_true, if_false, List.not_mem_nil, false_and]
  | true => simp only [if_true, List.mem_singleton, true_and]

/-- The task's blocks are in use and hold what they should: a circular list of terminated secrets,
and with a wand a terminated secret of its own. -/
structure Keeps (h : Heap Block) (t : Task) (xs : List Addr) : Prop where
  ring : h.Ring t.secretsPtr xs
  head : h.contents Block.strip t.secretsPtr = some (.head ⟨0, 0⟩)
  entry : ∀ a ∈ xs, ∃ secret, h.contents Block.strip a = some (.node ⟨0, 0⟩ secret) ∧ 0 ∈ secret ∧
    secret.length = secretMaxsize
  secret : t.holdingWand = true → ∃ bytes, h.contents Block.strip t.mySecret = some (.string bytes) ∧
    0 ∈ bytes ∧ bytes.length ≤ secretMaxsize

section Keeps

variable {h h' : Heap Block} {t : Task} {xs : List Addr}

theorem Keeps.congr (hkeeps : Keeps h t xs) (hsame : ∀ a ∈ t.blocks xs, Heap.SameAt Block.strip h h' a) :
    Keeps h' t xs := by
  have hring : ∀ a ∈ t.secretsPtr :: xs, Heap.SameAt Block.strip h h' a := fun a ha =>
    hsame a (Task.mem_blocks.2 (Or.inl ha))
  refine ⟨?_, ?_, ?_, ?_⟩
  · exact hkeeps.ring.congr (fun a ha => (hring a ha).next) fun a ha => (hring a ha).prev
  · rw [(hring _ List.mem_cons_self).contents]
    exact hkeeps.head
  · intro a ha
    rw [(hring a (List.mem_cons_of_mem _ ha)).contents]
    exact hkeeps.entry a ha
  · intro hwand
    rw [(hsame _ (Task.mem_blocks.2 (Or.inr ⟨hwand, rfl⟩))).contents]
    exact hkeeps.secret hwand

theorem Keeps.in_use (hkeeps : Keeps h t xs) {a : Addr} (ha : a ∈ t.blocks xs) :
    ∃ b, h.contents Block.strip a = some b := by
  rcases Task.mem_blocks.1 ha with ha | ⟨hwand, rfl⟩
  · rcases List.mem_cons.1 ha with rfl | ha
    · exact ⟨_, hkeeps.head⟩
    · obtain ⟨secret, hsecret, -⟩ := hkeeps.entry a ha
      exact ⟨_, hsecret⟩
  · obtain ⟨bytes, hbytes, -⟩ := hkeeps.secret hwand
    exact ⟨_, hbytes⟩

/-- Memory that is not in use is no block of the task. -/
theorem Keeps.ne_of_free (hkeeps : Keeps h t xs) {a c : Addr} (ha : a ∈ t.blocks xs)
    (hc : h.cells c = none) : a ≠ c := by
  rintro rfl
  obtain ⟨b, hb⟩ := hkeeps.in_use ha
  rw [Heap.contents, hc] at hb
  cases hb

/-- The secret is a block of its own. -/
theorem Keeps.secret_not_mem (hkeeps : Keeps h t xs) (hwand : t.holdingWand = true) :
    t.mySecret ∉ t.secretsPtr :: xs := by
  intro hmem
  obtain ⟨bytes, hbytes, -⟩ := hkeeps.secret hwand
  rcases List.mem_cons.1 hmem with heq | hmem
  · rw [heq, hkeeps.head] at hbytes
    cases hbytes
  · obtain ⟨secret, hsecret, -⟩ := hkeeps.entry _ hmem
    rw [hbytes] at hsecret
    cases hsecret

/-- A change to other fields of the task. -/
theorem Keeps.of_fields (hkeeps : Keeps h t xs) {t' : Task} (hptr : t'.secretsPtr = t.secretsPtr)
    (hwand : t'.holdingWand = true → t.holdingWand = true ∧ t'.mySecret = t.mySecret) : Keeps h t' xs := by
  refine ⟨?_, ?_, hkeeps.entry, ?_⟩
  · rw [hptr]
    exact hkeeps.ring
  · rw [hptr]
    exact hkeeps.head
  · intro hw
    rw [(hwand hw).2]
    exact hkeeps.secret (hwand hw).1

end Keeps

/-! ### Searches -/

/-- The secret in a list entry. -/
def secretAt (h : Heap Block) (a : Addr) : List UInt8 :=
  match h.cells a with
  | some (.node _ secret) => secret
  | _ => []

theorem loadString_of_string {h : Heap Block} {a : Addr} {bytes : List UInt8}
    (ha : h.contents Block.strip a = some (.string bytes)) : loadString h a = .ok bytes := by
  rw [loadString, cells_of_string ha]

/-- The search of an intact list for a terminated secret. -/
theorem secretStolen_eq {h : Heap Block} {t : Task} {ys : List Addr} (hkeeps : Keeps h t ys) {secret : Addr}
    {mine : List UInt8} (hsecret : h.contents Block.strip secret = some (.string mine)) (hzero : 0 ∈ mine) :
    secretStolen h t.secretsPtr secret =
      .ok (ys.findSome? fun a => if text (secretAt h a) = text mine then some () else none).isSome := by
  obtain ⟨first, hfirst⟩ := Heap.chain_exists_next hkeeps.ring.chain List.mem_cons_self
  rw [secretStolen, loadNext, hfirst]
  dsimp only [bind, Except.bind]
  rw [hkeeps.ring.walk_eq hfirst, Heap.visit_eq_findSome (f := fun a =>
    if text (secretAt h a) = text mine then some () else none)]
  · rfl
  · intro a ha
    obtain ⟨theirs, htheirs, hterminated, -⟩ := hkeeps.entry a ha
    obtain ⟨l, hcell⟩ := cells_of_node htheirs
    have hat : secretAt h a = theirs := by rw [secretAt, hcell]
    rw [loadSecret, hcell]
    dsimp only
    rw [loadString_of_string hsecret]
    dsimp only
    rw [strcmp_spells hterminated (spells_ofBlock hzero), hat]
    dsimp only
    by_cases heq : text theirs = text mine
    · rw [decide_eq_true heq, if_pos heq]
      rfl
    · rw [decide_eq_false heq, if_neg heq]
      rfl

/-! ### Ownership -/

/-- Every live task `p` keeps its blocks, with the list entries `xs p`. -/
structure Owns (s : State) (xs : TaskId → List Addr) : Prop where
  hashed : Hashed s
  keeps : ∀ p, s.Live p → Keeps s.heap (s.task p) (xs p)
  apart : ∀ p q, s.Live p → s.Live q → p ≠ q →
    ∀ a, a ∈ (s.task p).blocks (xs p) → a ∉ (s.task q).blocks (xs q)

section Local

variable {s t : State} {xs : TaskId → List Addr} {ys : List Addr} {p : TaskId}

/-- A change to the blocks of `p` only, to which it adds no memory that was in use. -/
theorem Owns.of_local (howns : Owns s xs) (honly : ChangesOnly p s t)
    (hsame : ∀ q, q ≠ p → s.Live q → ∀ a ∈ (s.task q).blocks (xs q), Heap.SameAt Block.strip s.heap t.heap a)
    (hself : t.Live p → Keeps t.heap (t.task p) ys ∧ ∀ a ∈ (t.task p).blocks ys,
      s.heap.cells a = none ∨ s.Live p ∧ a ∈ (s.task p).blocks (xs p)) :
    Owns t (Function.update xs p ys) := by
  have hother : ∀ q, q ≠ p → t.Live q → s.Live q ∧ t.task q = s.task q := by
    rintro q hq ⟨hvisible, hlive⟩
    rw [honly.task q hq] at hlive
    exact ⟨⟨(honly.visible q hq).1 hvisible, hlive⟩, honly.task q hq⟩
  -- The blocks of `p` stay apart from those of the others.
  have hapart : ∀ q, q ≠ p → t.Live p → t.Live q → ∀ a, a ∈ (t.task p).blocks ys →
      a ∉ (t.task q).blocks (xs q) := by
    intro q hq hp hq' a ha hmem
    obtain ⟨hlive, htask⟩ := hother q hq hq'
    rw [htask] at hmem
    rcases (hself hp).2 a ha with hfree | ⟨hplive, hpa⟩
    · exact (howns.keeps q hlive).ne_of_free hmem hfree rfl
    · exact howns.apart p q hplive hlive hq.symm a hpa hmem
  refine ⟨honly.hashed, ?_, ?_⟩
  · intro q hq
    by_cases hqp : q = p
    · subst hqp
      rw [Function.update_self]
      exact (hself hq).1
    · obtain ⟨hlive, htask⟩ := hother q hqp hq
      rw [Function.update_of_ne hqp, htask]
      exact (howns.keeps q hlive).congr (hsame q hqp hlive)
  · intro q r hq hr hqr a ha hmem
    by_cases hqp : q = p
    · subst hqp
      rw [Function.update_self] at ha
      rw [Function.update_of_ne hqr.symm] at hmem
      exact hapart r hqr.symm hq hr a ha hmem
    · rw [Function.update_of_ne hqp] at ha
      by_cases hrp : r = p
      · subst hrp
        rw [Function.update_self] at hmem
        exact hapart q hqp hr hq a hmem ha
      · obtain ⟨hqlive, hqtask⟩ := hother q hqp hq
        obtain ⟨hrlive, hrtask⟩ := hother r hrp hr
        rw [Function.update_of_ne hrp, hrtask] at hmem
        rw [hqtask] at ha
        exact howns.apart q r hqlive hrlive hqr a ha hmem

/-- The same for a call that leaves the process table alone. -/
theorem Owns.of_modTask (howns : Owns s xs) {heap : Heap Block} {f : Task → Task}
    (hpid : ∀ u, (f u).pid = u.pid) (hexited : ∀ u, (f u).exited = u.exited)
    (hsame : ∀ q, q ≠ p → s.Live q → ∀ a ∈ (s.task q).blocks (xs q), Heap.SameAt Block.strip s.heap heap a)
    (hself : s.Live p → Keeps heap (f (s.task p)) ys ∧ ∀ a ∈ (f (s.task p)).blocks ys,
      s.heap.cells a = none ∨ a ∈ (s.task p).blocks (xs p)) :
    Owns ({ s with heap := heap }.modTask p f) (Function.update xs p ys) := by
  refine howns.of_local (changesOnly_modTask howns.hashed hpid heap) hsame ?_
  rintro ⟨hvisible, hlive⟩
  rw [task_modTask_self, hexited] at hlive
  rw [task_modTask_self]
  have hp : s.Live p := ⟨(visible_modTask hpid heap p).1 hvisible, hlive⟩
  obtain ⟨hkeeps, hblocks⟩ := hself hp
  exact ⟨hkeeps, fun a ha => (hblocks a ha).imp_right fun hmem => ⟨hp, hmem⟩⟩

/-- A change to other fields of `p`. -/
theorem Owns.of_fields (howns : Owns s xs) {f : Task → Task} (hpid : ∀ u, (f u).pid = u.pid)
    (hexited : ∀ u, (f u).exited = u.exited) (hwand : ∀ u, (f u).holdingWand = u.holdingWand)
    (hsecret : ∀ u, (f u).mySecret = u.mySecret) (hptr : ∀ u, (f u).secretsPtr = u.secretsPtr) :
    Owns (s.modTask p f) xs := by
  rw [← Function.update_eq_self p xs]
  refine howns.of_modTask hpid hexited (fun _ _ _ _ _ => Heap.SameAt.of_cells rfl) fun hp => ⟨?_, fun a ha => ?_⟩
  · refine (howns.keeps p hp).of_fields (hptr _) fun hw => ?_
    rw [hwand] at hw
    exact ⟨hw, hsecret _⟩
  · rw [Task.blocks, hwand, hsecret, hptr] at ha
    exact Or.inr ha

theorem Owns.attack (howns : Owns s xs) (target : TaskId) (health : Int32) :
    Owns (s.modTask target fun u => { u with health := health }) xs :=
  howns.of_fields (f := fun u => { u with health := health }) (fun _ => rfl) (fun _ => rfl) (fun _ => rfl)
    (fun _ => rfl) fun _ => rfl

theorem Owns.clock (howns : Owns s xs) (p : TaskId) (magicTime magicCallTime : UInt32) :
    Owns (s.modTask p fun u => { u with magicTime := magicTime, magicCallTime := magicCallTime }) xs :=
  howns.of_fields (f := fun u => { u with magicTime := magicTime, magicCallTime := magicCallTime })
    (fun _ => rfl) (fun _ => rfl) (fun _ => rfl) (fun _ => rfl) fun _ => rfl

/-- A call after which `p`, still without a wand, has the blocks of its list. -/
theorem Owns.of_bare (howns : Owns s xs) {heap : Heap Block} {f : Task → Task}
    (hpid : ∀ u, (f u).pid = u.pid) (hexited : ∀ u, (f u).exited = u.exited)
    (hptr : ∀ u, (f u).secretsPtr = u.secretsPtr) (hwand : (f (s.task p)).holdingWand = false)
    (hsame : ∀ q, s.Live q → ∀ a ∈ (s.task q).blocks (xs q), Heap.SameAt Block.strip s.heap heap a) :
    Owns ({ s with heap := heap }.modTask p f) xs := by
  rw [← Function.update_eq_self p xs]
  have hbare : (f (s.task p)).holdingWand ≠ true := ne_true_of_eq_false hwand
  refine howns.of_modTask hpid hexited (fun q _ => hsame q) fun hp => ⟨?_, fun a ha => ?_⟩
  · exact ((howns.keeps p hp).congr (hsame p hp)).of_fields (hptr _) fun hw => absurd hw hbare
  · rcases Task.mem_blocks.1 ha with ha | ⟨hw, -⟩
    · rw [hptr] at ha
      exact Or.inr (Task.mem_blocks.2 (Or.inl ha))
    · exact absurd hw hbare

theorem Owns.getWand (howns : Owns s xs) {power : Int32} {mem : Addr} (hfree : s.heap.cells mem = none)
    (hgot : GotWand p power mem s t) : Owns t xs := by
  have hne : ∀ q, s.Live q → ∀ a ∈ (s.task q).blocks (xs q), a ≠ mem := fun q hq a ha =>
    (howns.keeps q hq).ne_of_free ha hfree
  cases hgot with
  | refused => exact howns
  | noMemory hwand =>
      exact howns.of_bare (fun _ => rfl) (fun _ => rfl) (fun _ => rfl) hwand
        fun _ _ _ _ => Heap.SameAt.of_cells rfl
  | wand hwand hmem bytes hzero hlen =>
      have hsame : ∀ q, s.Live q → ∀ a ∈ (s.task q).blocks (xs q),
          Heap.SameAt Block.strip s.heap (s.heap.alloc mem (.string bytes)) a := fun q hq a ha =>
        Heap.sameAt_alloc _ _ (hne q hq a ha) _
      rw [← Function.update_eq_self p xs]
      refine howns.of_modTask (fun _ => rfl) (fun _ => rfl) (fun q _ => hsame q) fun hp => ⟨?_, fun a ha => ?_⟩
      · have hkeeps := (howns.keeps p hp).congr (hsame p hp)
        refine ⟨hkeeps.ring, hkeeps.head, hkeeps.entry, fun _ => ⟨bytes, ?_, hzero, hlen⟩⟩
        rw [Heap.contents_alloc hmem]
        exact Function.update_self ..
      · rcases Task.mem_blocks.1 ha with ha | ⟨-, ha⟩
        · exact Or.inr (Task.mem_blocks.2 (Or.inl ha))
        · rw [ha]
          exact Or.inl hfree
  | changed hwand hmem bytes =>
      refine howns.of_bare (fun _ => rfl) (fun _ => rfl) (fun _ => rfl) hwand fun q hq a ha => ?_
      exact (Heap.sameAt_alloc _ _ (hne q hq a ha) _).trans (Heap.sameAt_free _ _ (hne q hq a ha))

/-- `list_add_tail` of a new entry to the list of a task. -/
theorem Keeps.addTail {h : Heap Block} {u : Task} (hkeeps : Keeps h u ys) {mem : Addr}
    (hfree : h.cells mem = none) (hmem : mem ≠ 0) (secret : List UInt8) :
    ∃ heap, (h.alloc mem (.node ⟨0, 0⟩ secret)).listAddTail mem u.secretsPtr = some heap ∧
      heap.Ring u.secretsPtr (ys ++ [mem]) ∧
      heap.contents Block.strip = Function.update (h.contents Block.strip) mem (some (.node ⟨0, 0⟩ secret)) ∧
      ∀ a, a ∉ u.secretsPtr :: ys → a ≠ mem → Heap.SameAt Block.strip h heap a := by
  have hfresh : mem ∉ u.secretsPtr :: ys := fun hin =>
    hkeeps.ne_of_free (Task.mem_blocks.2 (Or.inl hin)) hfree rfl
  have hring := hkeeps.ring.alloc hfresh (Block.node ⟨0, 0⟩ secret)
  have hnext : (h.alloc mem (.node ⟨0, 0⟩ secret)).next mem = some 0 := by
    rw [Heap.next_alloc hmem, Function.update_self]
    rfl
  obtain ⟨heap, hadd, hring', hrelinked⟩ := hring.addTail hnext hfresh
  refine ⟨heap, hadd, hring', ?_, fun a hout hne => ?_⟩
  · rw [hrelinked.contents Block.strip strip_setLink, Heap.contents_alloc hmem]
    rfl
  · have hlast : a ≠ ys.getLastD u.secretsPtr := by
      rintro rfl
      exact hout List.getLastD_mem_cons
    have hhead : a ≠ u.secretsPtr := by
      rintro rfl
      exact hout List.mem_cons_self
    refine (Heap.sameAt_alloc _ _ hne _).trans (hrelinked.sameAt strip_setLink ?_ ?_)
    · rw [Function.update_of_ne hlast, Function.update_of_ne hne]
    · rw [Function.update_of_ne hne, Function.update_of_ne hhead]

/-- A reading of a mind among intact blocks goes by what the search of the thief's list has found. -/
theorem sysMagicLegilimens_eq {thief v : TaskId} {zs : List Addr} {pid : Int32} {mem : Addr} {known : Bool}
    (junk : Nat → UInt8) (hkeeps : Keeps s.heap (s.task thief) zs) (hvictim : Keeps s.heap (s.task v) ys)
    (hfound : findTaskByPid s pid = some v) (hother : v ≠ thief) (harmed : (s.task thief).holdingWand = true)
    (hwand : (s.task v).holdingWand = true) (hfree : s.heap.cells mem = none)
    (hknown : secretStolen s.heap (s.task thief).secretsPtr (s.task v).mySecret = .ok known) :
    ∃ t, sysMagicLegilimens thief pid mem junk s =
      .ok (if known then (-EEXIST, s) else if mem = 0 then (-ENOMEM, s) else (0, t)) := by
  obtain ⟨mine, hmine, hzero, hlen⟩ := hvictim.secret hwand
  have hwands : ¬((s.task thief).holdingWand = false ∨ (s.task v).holdingWand = false) := by
    rw [harmed, hwand]
    decide
  unfold sysMagicLegilimens
  rw [hfound]
  dsimp only
  rw [if_neg hother, if_neg hwands, hknown, ok_bind]
  cases known with
  | true => exact ⟨s, rfl⟩
  | false =>
      by_cases hmem : mem = 0
      · refine ⟨s, ?_⟩
        rw [if_neg Bool.false_ne_true, if_neg Bool.false_ne_true, if_pos hmem, if_pos hmem]
        rfl
      have hroom : (text mine).length < ((List.range secretMaxsize).map junk).length := by
        rw [List.length_map, List.length_range]
        exact (length_text_lt hzero).trans_le hlen
      obtain ⟨bytes, hcopy⟩ := strcpy_of_spells (spells_ofBlock hzero) hroom
      obtain ⟨heap, hadd, -⟩ := hkeeps.addTail hfree hmem bytes
      refine ⟨{ s with heap := heap }, ?_⟩
      rw [if_neg Bool.false_ne_true, if_neg Bool.false_ne_true, if_neg hmem, if_neg hmem,
        loadString_of_string hmine, ok_bind, hcopy, ok_bind, hadd]
      rfl

/-- A stolen secret goes to the end of the thief's list. -/
theorem Owns.legilimens (howns : Owns s xs) {secret : List UInt8} {mem : Addr} {heap : Heap Block}
    (hp : s.Live p) (hfree : s.heap.cells mem = none) (hmem : mem ≠ 0) (hzero : 0 ∈ secret)
    (hlen : secret.length = secretMaxsize)
    (hadd : (s.heap.alloc mem (.node ⟨0, 0⟩ secret)).listAddTail mem (s.task p).secretsPtr = some heap) :
    Owns { s with heap := heap } (Function.update xs p (xs p ++ [mem])) := by
  have hkeeps := howns.keeps p hp
  have hne : ∀ q, s.Live q → ∀ a ∈ (s.task q).blocks (xs q), a ≠ mem := fun q hq a ha =>
    (howns.keeps q hq).ne_of_free ha hfree
  obtain ⟨heap', hadd', hring', hcontents, hframe⟩ := hkeeps.addTail hfree hmem secret
  rw [hadd] at hadd'
  cases hadd'
  have hsame : ∀ q, q ≠ p → s.Live q → ∀ a ∈ (s.task q).blocks (xs q),
      Heap.SameAt Block.strip s.heap heap a := by
    intro q hqp hq a ha
    refine hframe a (fun hin => ?_) (hne q hq a ha)
    exact howns.apart q p hq hp hqp a ha (Task.mem_blocks.2 (Or.inl hin))
  have hown : ∀ a ∈ (s.task p).blocks (xs p), heap.contents Block.strip a =
      s.heap.contents Block.strip a := fun a ha => by
    rw [hcontents, Function.update_of_ne (hne p hp a ha)]
  have hstate : { s with heap := heap } = State.modTask { s with heap := heap } p id := by
    rw [State.modTask]
    dsimp only [id]
    rw [Function.update_eq_self]
  rw [hstate]
  refine howns.of_modTask (fun _ => rfl) (fun _ => rfl) hsame fun _ => ⟨⟨hring', ?_, ?_, ?_⟩, ?_⟩
  · exact (hown _ (Task.mem_blocks.2 (Or.inl List.mem_cons_self))).trans hkeeps.head
  · intro a ha
    rcases List.mem_append.1 ha with ha | ha
    · rw [hown a (Task.mem_blocks.2 (Or.inl (List.mem_cons_of_mem _ ha)))]
      exact hkeeps.entry a ha
    · rw [List.mem_singleton.1 ha, hcontents, Function.update_self]
      exact ⟨secret, rfl, hzero, hlen⟩
  · intro hwand
    obtain ⟨bytes, hbytes⟩ := hkeeps.secret hwand
    exact ⟨bytes, (hown _ (Task.mem_blocks.2 (Or.inr ⟨hwand, rfl⟩))).trans hbytes.1, hbytes.2⟩
  · intro a ha
    rcases Task.mem_blocks.1 ha with ha | ha
    · rw [← List.cons_append] at ha
      rcases List.mem_append.1 ha with ha | ha
      · exact Or.inr (Task.mem_blocks.2 (Or.inl ha))
      · rw [List.mem_singleton.1 ha]
        exact Or.inl hfree
    · exact Or.inr (Task.mem_blocks.2 (Or.inr ha))

/-- A new list head, in memory that was not in use. -/
theorem keeps_childTask {h : Heap Block} {mem : Addr} (hmem : mem ≠ 0) (parent : Task) (pid : Int32) :
    Keeps (h.alloc mem (.head ⟨mem, mem⟩)) (childTask parent pid mem) [] := by
  refine ⟨⟨⟨?_, ?_⟩, List.nodup_singleton mem⟩, ?_, fun a ha => absurd ha List.not_mem_nil, ?_⟩
  · rw [Heap.next_alloc hmem]
    exact Function.update_self ..
  · rw [Heap.prev_alloc hmem]
    exact Function.update_self ..
  · rw [Heap.contents_alloc hmem]
    exact Function.update_self ..
  · intro hwand
    cases hwand

/-- Memory comes into use for the list head of a new task. -/
theorem Owns.fork_child (howns : Owns s xs) (parent : TaskId) {child : TaskId} (pid : Int32) {mem : Addr}
    (hchild : s.inUse child = false) (hfree : s.heap.cells mem = none) (hmem : mem ≠ 0) :
    Owns (doFork parent child pid mem s).2 (Function.update xs child []) := by
  have honly := changesOnly_child howns.hashed hmem parent pid hchild
  rw [doFork_child hmem] at honly ⊢
  refine howns.of_local honly ?_ ?_
  · intro q _ hq a ha
    exact Heap.sameAt_alloc _ _ ((howns.keeps q hq).ne_of_free ha hfree) _
  · intro _
    dsimp only
    rw [Function.update_self]
    refine ⟨keeps_childTask hmem (s.task parent) pid, fun a ha => ?_⟩
    rcases Task.mem_blocks.1 ha with ha | ⟨hwand, -⟩
    · rw [List.mem_singleton.1 ha]
      exact Or.inl hfree
    · cases hwand

theorem Owns.fork (howns : Owns s xs) (parent : TaskId) {child : TaskId} (pid : Int32) {mem : Addr}
    (hchild : s.inUse child = false) (hfree : s.heap.cells mem = none) :
    ∃ ys, Owns (doFork parent child pid mem s).2 (Function.update xs child ys) := by
  by_cases hmem : mem = 0
  · subst hmem
    refine ⟨xs child, howns.of_local (changesOnly_noMemory howns.hashed parent pid hchild) ?_ ?_⟩
    · intro q _ _ a _
      exact Heap.SameAt.of_cells rfl
    · rintro ⟨hvisible, -⟩
      exact absurd hvisible (not_mem_of_unused howns.hashed hchild _)
  · exact ⟨[], howns.fork_child parent pid hchild hfree hmem⟩

/-- What `do_exit` frees, if it returns: the blocks of the task, and no other. -/
theorem doExit_ok {ys : List Addr} (hkeeps : Keeps s.heap (s.task p) ys)
    (hclean : (s.task p).holdingWand = true ∨ (s.task p).mySecret = 0)
    (h : doExit p s = .ok t) :
    ∃ heap, t = { s with heap := heap }.modTask p (fun u => { u with exited := true }) ∧
      (∀ a ∈ (s.task p).blocks ys, heap.cells a = none) ∧
      ∀ a, a ∉ (s.task p).blocks ys → Heap.SameAt Block.strip s.heap heap a := by
  obtain ⟨h₀, hsecret, h⟩ := bind_eq_ok.1 h
  obtain ⟨first, hfirst, h⟩ := bind_eq_ok.1 h
  obtain ⟨h₁, hloop, h⟩ := bind_eq_ok.1 h
  obtain ⟨h₂, hhead, h⟩ := bind_eq_ok.1 h
  -- The secret goes first; what is left of the blocks is the list.
  have hring₀ : h₀.Ring (s.task p).secretsPtr ys ∧
      ((s.task p).holdingWand = true → h₀.cells (s.task p).mySecret = none) ∧
      ∀ a, a ∉ (s.task p).blocks ys → Heap.SameAt Block.strip s.heap h₀ a := by
    rcases kfree_ok hsecret with ⟨hzero, rfl⟩ | ⟨hnull, -, rfl⟩
    · refine ⟨hkeeps.ring, fun _ => ?_, fun a _ => Heap.SameAt.of_cells rfl⟩
      rw [hzero]
      exact s.heap.null
    · have hwand := hclean.resolve_right hnull
      refine ⟨hkeeps.ring.free (hkeeps.secret_not_mem hwand), fun _ => Function.update_self .., fun a ha => ?_⟩
      apply Heap.sameAt_free
      rintro rfl
      exact ha (Task.mem_blocks.2 (Or.inr ⟨hwand, rfl⟩))
  obtain ⟨hring, hfreed, hsame₀⟩ := hring₀
  obtain ⟨h', hloop', hring', hentries, hsame'⟩ :=
    freeSecrets_ring hring hring.length_le_top (loadNext_ok hfirst)
  rw [hloop] at hloop'
  cases hloop'
  rw [kfree_of_cell (cell_of_next hring'.chain.1)] at hhead
  cases hhead
  have hlast : ∀ a, h₁.cells a = none → (h₁.free (s.task p).secretsPtr).cells a = none := by
    intro a ha
    by_cases heq : a = (s.task p).secretsPtr
    · rw [heq]
      exact Function.update_self ..
    · exact (Function.update_of_ne heq ..).trans ha
  split at h
  · cases h
  split at h
  · cases h
  cases h
  refine ⟨_, rfl, ?_, ?_⟩
  · intro a ha
    rcases Task.mem_blocks.1 ha with ha | ⟨hwand, rfl⟩
    · rcases List.mem_cons.1 ha with rfl | ha
      · exact Function.update_self ..
      · exact hlast a (hentries a ha)
    · exact hlast _ ((hsame' _ (hkeeps.secret_not_mem hwand)).cells_eq_none.2 (hfreed hwand))
  · intro a ha
    have hout : a ∉ (s.task p).secretsPtr :: ys := fun hin => ha (Task.mem_blocks.2 (Or.inl hin))
    have hhead : a ≠ (s.task p).secretsPtr := fun heq => hout (heq ▸ List.mem_cons_self)
    exact ((hsame₀ a ha).trans (hsame' a hout)).trans (Heap.sameAt_free _ _ hhead)

theorem Owns.exit (howns : Owns s xs) (hp : s.Live p)
    (hclean : (s.task p).holdingWand = true ∨ (s.task p).mySecret = 0)
    (h : doExit p s = .ok t) : Owns t xs := by
  obtain ⟨heap, rfl, -, hsame⟩ := doExit_ok (howns.keeps p hp) hclean h
  rw [← Function.update_eq_self p xs]
  have honly := changesOnly_modTask (p := p) (f := fun u => { u with exited := true }) howns.hashed
    (fun _ => rfl) heap
  refine howns.of_local honly ?_ ?_
  · intro q hqp hq a ha
    exact hsame a (howns.apart q p hq hp hqp a ha)
  · rintro ⟨-, hlive⟩
    rw [task_modTask_self] at hlive
    cases hlive

theorem Owns.release (howns : Owns s xs) : Owns (releaseTask p s) xs := by
  rw [← Function.update_eq_self p xs]
  refine howns.of_local (changesOnly_releaseTask howns.hashed p) ?_ ?_
  · intro q _ _ a _
    exact Heap.SameAt.of_cells rfl
  · rintro ⟨hvisible, -⟩
    exact absurd rfl ((mem_releaseTask howns.hashed).1 hvisible).1

end Local

/-! ### Runs -/

/-- An exit that frees nothing of another task, and nothing twice: the exiting task has a wand, or its
`my_secret` is null. -/
def CleanExit (s : State) (e : Event) : Prop :=
  match e.call with
  | .exit => (s.task e.current).holdingWand = true ∨ (s.task e.current).mySecret = 0
  | _ => True

instance (s : State) : (e : Event) → Decidable (CleanExit s e)
  | ⟨p, .exit⟩ =>
    inferInstanceAs (Decidable ((s.task p).holdingWand = true ∨ (s.task p).mySecret = 0))
  | ⟨_, .fork _ _ _⟩ | ⟨_, .getWand _ _ _ _⟩ | ⟨_, .attack _⟩ | ⟨_, .legilimens _ _ _⟩ |
    ⟨_, .listSecrets _ _⟩
  | ⟨_, .magicClock _ _⟩ | ⟨_, .release _⟩ => .isTrue trivial

/-- What a step adds to the list of a task that is live before and after it: nothing, or the secret of
another task whose mind it has read. -/
inductive Gains (s t : State) (e : Event) (q : TaskId) (xs : List Addr) : List Addr → Prop
  | nothing (hnone : e.current = q → victimOf s e = none) : Gains s t e q xs xs
  | secret {pid : Int32} {mem : Addr} {junk : Nat → UInt8} {victim : TaskId} {mine secret : List UInt8}
      (he : e = ⟨q, .legilimens pid mem junk⟩) (hsteals : Steals s q pid mem victim)
      (hvictim : victimOf s e = some victim)
      (hmine : s.heap.cells (s.task victim).mySecret = some (.string mine))
    (hspells : Spells (ofBlock mine) (text secret))
      (hentry : t.heap.contents Block.strip mem = some (.node ⟨0, 0⟩ secret)) : Gains s t e q xs (xs ++ [mem])

/-- A step keeps what is in the blocks of a task that is live before and after it. -/
structure Carries (s t : State) (e : Event) (q : TaskId) (xs ys : List Addr) : Prop where
  contents : ∀ a ∈ (s.task q).blocks xs, t.heap.contents Block.strip a = s.heap.contents Block.strip a
  entries : Gains s t e q xs ys

section Carries

variable {s t : State} {e : Event} {xs : TaskId → List Addr} {p q : TaskId}

theorem Owns.ne_of_unused (howns : Owns s xs) (hp : s.inUse p = false) (hq : s.Live q) : q ≠ p := by
  rintro rfl
  exact not_mem_of_unused howns.hashed hp _ hq.1

/-- A step that changes no block but one that was not in use. -/
theorem Owns.carries_fresh (howns : Owns s xs) {mem : Addr} (hfree : s.heap.cells mem = none)
    (hcontents : ∀ a, a ≠ mem → t.heap.contents Block.strip a = s.heap.contents Block.strip a)
    (hnone : victimOf s e = none) (hq : s.Live q) : Carries s t e q (xs q) (xs q) :=
  ⟨fun a ha => hcontents a ((howns.keeps q hq).ne_of_free ha hfree), .nothing fun _ => hnone⟩

/-- A step that changes no block. -/
theorem Owns.carries_same (howns : Owns s xs) (hheap : t.heap = s.heap)
    (hnone : victimOf s e = none) (hq : s.Live q) : Carries s t e q (xs q) (xs q) := by
  refine howns.carries_fresh s.heap.null (fun a _ => ?_) hnone hq
  rw [hheap]

theorem Owns.carries_fork (howns : Owns s xs) (parent : TaskId) {child : TaskId} (pid : Int32) {mem : Addr}
    (hchild : s.inUse child = false) (hfree : s.heap.cells mem = none) (ys : List Addr) (hq : s.Live q) :
    Carries s (doFork parent child pid mem s).2 ⟨parent, .fork child pid mem⟩ q (xs q)
      (Function.update xs child ys q) := by
  rw [Function.update_of_ne (howns.ne_of_unused hchild hq)]
  refine howns.carries_fresh hfree (fun a ha => ?_) rfl hq
  by_cases hmem : mem = 0
  · subst hmem
    rfl
  · rw [doFork_child hmem]
    dsimp only
    rw [Heap.contents_alloc hmem, Function.update_of_ne ha]

theorem Owns.carries_getWand (howns : Owns s xs) {power : Int32} {secret : Option SecretReads} {mem : Addr}
    {junk : Nat → UInt8} (hfree : s.heap.cells mem = none) (hgot : GotWand p power mem s t) (hq : s.Live q) :
    Carries s t ⟨p, .getWand power secret mem junk⟩ q (xs q) (xs q) := by
  refine howns.carries_fresh hfree (fun a ha => ?_) rfl hq
  cases hgot with
  | refused => rfl
  | noMemory hwand => rfl
  | wand hwand hmem bytes =>
      dsimp only [State.modTask]
      rw [Heap.contents_alloc hmem, Function.update_of_ne ha]
  | changed hwand hmem bytes =>
      dsimp only [State.modTask]
      rw [Heap.contents_free, Function.update_of_ne ha, Heap.contents_alloc hmem, Function.update_of_ne ha]

theorem Owns.carries_legilimens (howns : Owns s xs) {victim : TaskId} {pid : Int32} {mem : Addr}
    {junk : Nat → UInt8} {mine secret : List UInt8} {heap : Heap Block} (hfree : s.heap.cells mem = none)
    (hsteals : Steals s p pid mem victim) (hvictim : victimOf s ⟨p, .legilimens pid mem junk⟩ = some victim)
    (hmine : s.heap.cells (s.task victim).mySecret = some (.string mine))
    (hspells : Spells (ofBlock mine) (text secret))
    (hadd : (s.heap.alloc mem (.node ⟨0, 0⟩ secret)).listAddTail mem (s.task p).secretsPtr = some heap)
    (hq : s.Live q) : Carries s { s with heap := heap } ⟨p, .legilimens pid mem junk⟩ q (xs q)
      (Function.update xs p (xs p ++ [mem]) q) := by
  have hcontents := Heap.contents_listAddTail strip_setLink hadd
  rw [Heap.contents_alloc hsteals.memory] at hcontents
  refine ⟨fun a ha => ?_, ?_⟩
  · dsimp only
    rw [hcontents, Function.update_of_ne ((howns.keeps q hq).ne_of_free ha hfree)]
  · by_cases hqp : q = p
    · subst hqp
      rw [Function.update_self]
      refine .secret rfl hsteals hvictim hmine hspells ?_
      dsimp only
      rw [hcontents, Function.update_self]
      rfl
    · rw [Function.update_of_ne hqp]
      exact .nothing fun heq => absurd heq.symm hqp

theorem Owns.carries_exit (howns : Owns s xs) (hp : s.Live p)
    (hclean : (s.task p).holdingWand = true ∨ (s.task p).mySecret = 0)
    (h : doExit p s = .ok t) (hq : s.Live q) (hq' : t.Live q) : Carries s t ⟨p, .exit⟩ q (xs q) (xs q) := by
  have hqp : q ≠ p := by
    rintro rfl
    exact not_live_of_exit h hq'
  obtain ⟨heap, rfl, -, hsame⟩ := doExit_ok (howns.keeps p hp) hclean h
  refine ⟨fun a ha => ?_, .nothing fun _ => rfl⟩
  exact (hsame a (howns.apart q p hq hp hqp a ha)).contents

end Carries

theorem Owns.step {s t : State} {e : Event} {xs : TaskId → List Addr} (howns : Owns s xs)
    (hclean : CleanExit s e) (hstep : machine.Step s e t) :
    ∃ ys, Owns t ys ∧ ∀ q, s.Live q → t.Live q → Carries s t e q (xs q) (ys q) := by
  obtain ⟨⟨hvisible, hlive, henabled⟩, hstep⟩ := hstep
  obtain ⟨p, call⟩ := e
  have hp : s.Live p := ⟨hvisible, hlive⟩
  cases call with
  | fork child pid mem =>
      cases hstep
      obtain ⟨ys, hfork⟩ := howns.fork p pid henabled.1 henabled.2.2.2
      exact ⟨_, hfork, fun q hq _ => howns.carries_fork p pid henabled.1 henabled.2.2.2 ys hq⟩
  | getWand power secret mem junk =>
      obtain ⟨⟨r, u⟩, hcall, heq⟩ := bind_eq_ok.1 hstep
      cases heq
      have hgot := sysMagicGetWand_ok hcall
      exact ⟨xs, howns.getWand henabled hgot, fun q hq _ => howns.carries_getWand henabled hgot hq⟩
  | attack pid =>
      obtain ⟨⟨r, u⟩, hcall, heq⟩ := bind_eq_ok.1 hstep
      cases heq
      rcases sysMagicAttack_ok hcall with rfl | ⟨target, health, -, rfl⟩
      · exact ⟨xs, howns, fun q hq _ => howns.carries_same rfl rfl hq⟩
      · exact ⟨xs, howns.attack target health, fun q hq _ => howns.carries_same rfl rfl hq⟩
  | legilimens pid mem junk =>
      obtain ⟨⟨r, u⟩, hcall, heq⟩ := bind_eq_ok.1 hstep
      cases heq
      rcases sysMagicLegilimens_cases hcall with ⟨rfl, hrefused⟩ |
        ⟨victim, mine, secret, heap, hsteals, rfl, hmine, hspells, hzero, hlen, hadd, rfl⟩
      · exact ⟨xs, howns, fun q hq _ => howns.carries_same rfl (victimOf_of_refused hcall hrefused) hq⟩
      · exact ⟨_, howns.legilimens hp henabled hsteals.memory hzero hlen hadd, fun q hq _ =>
          howns.carries_legilimens henabled hsteals (victimOf_of_steals hcall hsteals) hmine hspells hadd hq⟩
  | listSecrets secrets size =>
      obtain ⟨r, -, heq⟩ := bind_eq_ok.1 hstep
      cases heq
      exact ⟨xs, howns, fun q hq _ => howns.carries_same rfl rfl hq⟩
  | magicClock seconds jiffies =>
      cases hstep
      rcases sysMagicClock_eq p seconds jiffies s with heq | ⟨magicTime, magicCallTime, heq⟩
      · rw [heq]
        exact ⟨xs, howns, fun q hq _ => howns.carries_same rfl rfl hq⟩
      · rw [heq]
        exact ⟨xs, howns.clock p magicTime magicCallTime, fun q hq _ => howns.carries_same rfl rfl hq⟩
  | exit => exact ⟨xs, howns.exit hp hclean hstep, fun q => howns.carries_exit hp hclean hstep⟩
  | release q =>
      cases hstep
      exact ⟨xs, howns.release, fun q hq _ => howns.carries_same rfl rfl hq⟩

/-- The states runs start in: any number of tasks, none of them with a wand or a secret, each with an
empty list of its own. -/
structure Initial (s : State) : Prop where
  hashed : Hashed s
  pid_pos : ∀ p, s.Visible p → 0 < (s.task p).pid
  pid_inj : ∀ p q, s.Visible p → s.Visible q → (s.task p).pid = (s.task q).pid → p = q
  live : ∀ p, s.Visible p → (s.task p).exited = false
  bare : ∀ p, s.Visible p → (s.task p).holdingWand = false ∧ (s.task p).mySecret = 0
  head : ∀ p, s.Visible p →
    s.heap.cells (s.task p).secretsPtr = some (.head ⟨(s.task p).secretsPtr, (s.task p).secretsPtr⟩)
  apart : ∀ p q, s.Visible p → s.Visible q → p ≠ q → (s.task p).secretsPtr ≠ (s.task q).secretsPtr

theorem owns_of_initial {s : State} (hinit : Initial s) : Owns s fun _ => [] := by
  have hblocks : ∀ p, s.Visible p → (s.task p).blocks [] = [(s.task p).secretsPtr] := by
    intro p hp
    rw [Task.blocks, (hinit.bare p hp).1]
    rfl
  refine ⟨hinit.hashed, ?_, ?_⟩
  · rintro p ⟨hp, -⟩
    have hcell := hinit.head p hp
    refine ⟨⟨⟨?_, ?_⟩, List.nodup_singleton _⟩, ?_, fun a ha => absurd ha List.not_mem_nil, ?_⟩
    · rw [Heap.next, Heap.link, hcell]
      rfl
    · rw [Heap.prev, Heap.link, hcell]
      rfl
    · rw [Heap.contents, hcell]
      rfl
    · intro hwand
      rw [(hinit.bare p hp).1] at hwand
      cases hwand
  · rintro p q ⟨hp, -⟩ ⟨hq, -⟩ hpq a ha hmem
    rw [hblocks p hp, List.mem_singleton] at ha
    rw [hblocks q hq, List.mem_singleton] at hmem
    exact hinit.apart p q hp hq hpq (ha.symm.trans hmem)

/-- Along runs whose exits are clean, every live task keeps its blocks. -/
theorem owns_of_reachable {s : State} (h : (machine.restrict CleanExit).Reachable Initial s) :
    ∃ xs, Owns s xs := by
  refine h.invariant (I := fun u => ∃ xs, Owns u xs) (fun u hu => ⟨_, owns_of_initial hu⟩) ?_
  rintro u e t - ⟨xs, howns⟩ hstep
  obtain ⟨hclean, hstep⟩ := Machine.restrict_step.1 hstep
  obtain ⟨ys, howns', -⟩ := howns.step hclean hstep
  exact ⟨ys, howns'⟩

/-! ### A machine that has just booted -/

def initTask : Task where
  pid := 1
  exited := false
  holdingWand := false
  health := 0
  power := 0
  mySecret := 0
  secretsPtr := 1
  magicTime := 0
  magicCallTime := 0

/-- `init`, with its list head at the address 1. -/
def boot : State where
  task _ := initTask
  inUse p := p = 1
  pidhash k := if k = pidHashfn 1 then [1] else []
  heap := Heap.empty.alloc 1 (.head ⟨1, 1⟩)

theorem mem_boot_pidhash {k : Int32} {p : TaskId} (hp : p ∈ boot.pidhash k) : p = 1 ∧ k = pidHashfn 1 := by
  have htable : boot.pidhash k = if k = pidHashfn 1 then [1] else [] := rfl
  rw [htable] at hp
  split at hp
  · rename_i hk
    exact ⟨List.mem_singleton.1 hp, hk⟩
  · cases hp

theorem boot_initial : Initial boot := by
  have hvisible : ∀ p, boot.Visible p → p = 1 := fun p hp => (mem_boot_pidhash hp).1
  refine ⟨?_, ?_, ?_, ?_, ?_, ?_, ?_⟩
  · intro k p hp
    obtain ⟨hone, hk⟩ := mem_boot_pidhash hp
    exact ⟨decide_eq_true hone, hk.symm⟩
  · intro p _
    exact (by decide : (0 : Int32) < 1)
  · intro p q hp hq _
    exact (hvisible p hp).trans (hvisible q hq).symm
  · intro p _
    rfl
  · intro p _
    exact ⟨rfl, rfl⟩
  · intro p _
    rfl
  · intro p q hp hq hpq
    exact absurd ((hvisible p hp).trans (hvisible q hq).symm) hpq

/-- A user buffer that holds a secret of one letter, the same at every read. -/
def oneLetter (c : UInt8) : SecretReads where
  first := c
  scan i := if i = 0 then c else 0
  copy i := if i = 0 then c else 0
  compare i := if i = 0 then c else 0

/-- A user buffer with `n` letters before the first NUL, the same at every read. -/
def letters (n : Nat) : SecretReads where
  first := if 0 < n then 97 else 0
  scan i := if i < n then 97 else 0
  copy i := if i < n then 97 else 0
  compare i := if i < n then 97 else 0

end MagicKernel.Wand
