import MagicKernel.PointerLists
import MagicKernel.ProcModel

/-! The links between task structures. The tasks form a ring through `init_task`, each stands in the row of
children of its parent, and the rings of the thread groups are closed. Each operation on the links is shown to
reach only structures that are allocated, and to change the ring and the rows as it should. -/

namespace MagicKernel.Proc

open FaultMachine PointerLists
open Function (update update_of_ne)
open Sched (TaskState)

variable {s t : State} {p q : TaskId} {tasks : List TaskId} {kids : TaskId → List TaskId} {loose : Option TaskId}

theorem deref_eq (h : s.allocated p = true) : s.deref p = .ok () := if_pos h

theorem not_zombie_of_running (hrun : s.state p = .running) : s.state p ≠ .zombie := fun hz =>
  TaskState.noConfusion (hrun.symm.trans hz)

/-! ### Walks -/

/-- A walk meets the members of a ring. -/
theorem walk_eq {next prev : TaskId → TaskId} {h : TaskId} {l : List TaskId} (hr : Ring next prev h l)
    (hnodup : (h :: l).Nodup) (hall : ∀ a ∈ l, s.allocated a = true) {fuel : Nat} (hfuel : l.length ≤ fuel) :
    s.walk next h fuel (next h) = .ok l := by
  -- By induction on what is left of the ring behind the task `a`.
  have hwalk : ∀ (l : List TaskId) (a : TaskId) (fuel : Nat),
      (a :: l ++ [h]).IsChain (fun a b => next a = b ∧ prev b = a) →
      h ∉ l → (∀ b ∈ l, s.allocated b = true) → l.length ≤ fuel → s.walk next h fuel (next a) = .ok l := by
    intro l
    induction l with
    | nil =>
        intro a fuel hchain _ _ _
        rw [List.cons_append, List.nil_append, List.isChain_pair] at hchain
        rw [hchain.1]
        cases fuel with
        | zero => exact if_pos rfl
        | succ fuel => exact if_pos rfl
    | cons b l ih =>
        intro a fuel hchain hh hall hfuel
        rw [List.cons_append, List.cons_append, List.isChain_cons_cons] at hchain
        rw [hchain.1.1]
        cases fuel with
        | zero => exact absurd hfuel (Nat.not_succ_le_zero _)
        | succ fuel =>
            have hne : b ≠ h := fun heq => hh (heq ▸ List.mem_cons_self)
            have hrest := ih b fuel hchain.2 (fun h' => hh (List.mem_cons_of_mem b h'))
              (fun c hc => hall c (List.mem_cons_of_mem b hc)) (Nat.le_of_succ_le_succ hfuel)
            rw [State.walk, if_neg hne, deref_eq (hall b List.mem_cons_self), ok_bind, hrest]
            rfl
  exact hwalk l h fuel hr (List.nodup_cons.1 hnodup).1 hall hfuel

/-- A walk depends on the state only by what is allocated. -/
theorem walk_congr (halloc : t.allocated = s.allocated) (next : TaskId → TaskId) (stop : TaskId) (fuel : Nat)
    (p : TaskId) : t.walk next stop fuel p = s.walk next stop fuel p := by
  have hderef : ∀ q, t.deref q = s.deref q := fun q => by rw [State.deref, State.deref, halloc]
  induction fuel generalizing p with
  | zero => rfl
  | succ fuel ih => rw [State.walk, State.walk, hderef, ih]

theorem length_le_of_below {l : List TaskId} {m : Nat} (hnodup : l.Nodup) (hlt : ∀ a ∈ l, a < m) : l.length ≤ m := by
  have hsub : l ⊆ List.range m := fun a ha => List.mem_range.2 (hlt a ha)
  have hle := (List.subperm_of_subset hnodup hsub).length_le
  rwa [List.length_range] at hle

/-! ### The ring of tasks and the rows of children -/

/-- The tasks `tasks` are linked, in this order, and `kids q` are the children of `q`, from the youngest on. -/
structure Tree (loose : Option TaskId) (s : State) (tasks : List TaskId) (kids : TaskId → List TaskId) : Prop where
  ring : Ring s.nextTask s.prevTask initTask tasks
  nodup : (initTask :: tasks).Nodup
  family : Family loose s.cptr s.ysptr s.osptr kids
  mem_kids : ∀ p q, p ∈ kids q ↔ p ∈ tasks ∧ s.pptr p = q
  allocated : ∀ p ∈ initTask :: tasks, s.allocated p = true
  below : ∀ p, s.allocated p = true → p < s.top

theorem Tree.task_ne (ht : Tree loose s tasks kids) (hp : p ∈ tasks) : p ≠ initTask := by
  rintro rfl
  exact (List.nodup_cons.1 ht.nodup).1 hp

theorem Tree.length_lt (ht : Tree loose s tasks kids) : tasks.length < s.top :=
  length_le_of_below ht.nodup fun a ha => ht.below a (ht.allocated a ha)

theorem Tree.allocated_of_mem (ht : Tree loose s tasks kids) (hp : p ∈ tasks) : s.allocated p = true :=
  ht.allocated p (List.mem_cons_of_mem _ hp)

/-- The youngest child of a task may be followed. -/
theorem Tree.allocated_cptr (ht : Tree loose s tasks kids) (hp : s.cptr q = some p) : s.allocated p = true := by
  obtain ⟨b, -, hrow⟩ := ht.family.row q
  have hkid : p ∈ kids q := List.mem_of_mem_head? (hrow.head.symm.trans hp)
  exact ht.allocated_of_mem ((ht.mem_kids p q).1 hkid).1

theorem Tree.forEachTask (ht : Tree loose s tasks kids) : s.forEachTask = .ok tasks :=
  walk_eq ht.ring ht.nodup (fun _ ha => ht.allocated_of_mem ha) ht.length_lt.le

/-- The children of a task are few enough for the loops over them. -/
theorem Tree.kids_length (ht : Tree loose s tasks kids) (q : TaskId) : (kids q).length ≤ s.top :=
  length_le_of_below (ht.family.nodup q) fun a ha =>
    ht.below a (ht.allocated_of_mem ((ht.mem_kids a q).1 ha).1)

/-- Other links in the ring of tasks and in the rows of children. -/
def State.relink (s : State) (n pr : TaskId → TaskId) (c y o : TaskId → Option TaskId) : State :=
  { s with nextTask := n, prevTask := pr, cptr := c, ysptr := y, osptr := o }

theorem removeLinks_eq (hp : s.allocated p = true) (hnext : s.allocated (s.nextTask p) = true)
    (hprev : s.allocated (s.prevTask p) = true) (hparent : s.allocated (s.pptr p) = true)
    (ho : ∀ a, s.osptr p = some a → s.allocated a = true ∧ a ≠ p)
    (hy : ∀ a, s.ysptr p = some a → s.allocated a = true) (hne : s.nextTask p ≠ p) :
    removeLinks p s = .ok (s.relink (update s.nextTask (s.prevTask p) (s.nextTask p))
      (update s.prevTask (s.nextTask p) (s.prevTask p))
      (if s.ysptr p = none then update s.cptr (s.pptr p) (s.osptr p) else s.cptr)
      (updateAt s.ysptr (s.osptr p) (s.ysptr p)) (updateAt s.osptr (s.ysptr p) (s.osptr p))) := by
  simp only [removeLinks, State.relink, State.deref, hp, hnext, if_true, ok_bind, update_of_ne hne.symm, hprev]
  cases hold : s.osptr p with
  | none =>
      dsimp only
      cases hyoung : s.ysptr p with
      | none =>
          simp only [hparent, if_true, updateAt]
          rfl
      | some a =>
          simp only [hy a hyoung, if_true, updateAt]
          rfl
  | some b =>
      have hyp : update s.ysptr b (s.ysptr p) p = s.ysptr p := update_of_ne (ho b hold).2.symm ..
      simp only [(ho b hold).1, if_true, ok_bind]
      cases hyoung : s.ysptr p with
      | none =>
          rw [hyoung] at hyp
          simp only [pure_bind, ok_bind, hyp, hold, hparent, if_true, updateAt]
          rfl
      | some a =>
          rw [hyoung] at hyp
          simp only [pure_bind, ok_bind, hyp, hold, hy a hyoung, if_true, updateAt]
          rfl

/-- A task is taken out of the ring and of the row of its parent. -/
theorem Tree.unlinked (ht : Tree none s tasks kids) (hp : p ∈ tasks) (hparent : s.pptr p ∈ initTask :: tasks) :
    ∃ n pr c y o, removeLinks p s = .ok (s.relink n pr c y o) ∧
      Tree none (s.relink n pr c y o) (tasks.erase p)
        (update kids (s.pptr p) ((kids (s.pptr p)).erase p)) := by
  have hkid : p ∈ kids (s.pptr p) := (ht.mem_kids p _).2 ⟨hp, rfl⟩
  obtain ⟨k₁, k₂, hk⟩ := List.append_of_mem hkid
  obtain ⟨l₁, l₂, hl⟩ := List.append_of_mem hp
  have hrow := ht.family.row_none (s.pptr p)
  have hnodupk := ht.family.nodup (s.pptr p)
  have hring := ht.ring
  have hnodup := ht.nodup
  rw [hk] at hrow hnodupk
  rw [hl] at hring hnodup
  obtain ⟨hold, hyoung⟩ := hrow.at_mem
  rw [Option.or_none] at hyoung
  have hlist : ∀ a ∈ k₁ ++ p :: k₂, s.allocated a = true := by
    intro a ha
    exact ht.allocated_of_mem ((ht.mem_kids a (s.pptr p)).1 (hk ▸ ha)).1
  have hmem : p ∈ initTask :: tasks := List.mem_cons_of_mem _ hp
  have hpl₁ : p ∉ l₁ := by
    rw [List.nodup_cons, List.nodup_append] at hnodup
    exact fun h => hnodup.2.2.2 p h p List.mem_cons_self rfl
  have hpk₁ : p ∉ k₁ := by
    rw [List.nodup_append] at hnodupk
    exact fun h => hnodupk.2.2 p h p List.mem_cons_self rfl
  have hne : s.nextTask p ≠ p := by
    obtain ⟨u, a, b, v, -, hv, -, ⟨hnext, -⟩, -⟩ := hring.split
    have hb : b ∈ l₂ ++ [initTask] := hv ▸ List.mem_cons_self
    rw [hnext]
    rintro rfl
    simp only [List.nodup_cons, List.nodup_append, List.mem_append, List.mem_cons, List.not_mem_nil, or_false]
      at hnodup hb
    rcases hb with hb | hb
    · exact hnodup.2.2.1.1 hb
    · exact hnodup.1 (.inr (.inl hb.symm))
  refine ⟨_, _, _, _, _, removeLinks_eq (ht.allocated p hmem) (ht.allocated _ (ht.ring.next_mem hmem))
    (ht.allocated _ (ht.ring.prev_mem hmem)) (ht.allocated _ hparent) (fun a ha => ?_) (fun a ha => ?_) hne, ?_⟩
  · have hak : a ∈ k₂ := List.mem_of_mem_head? (hold.symm.trans ha)
    refine ⟨hlist a (List.mem_append_right _ (List.mem_cons_of_mem p hak)), ?_⟩
    rintro rfl
    rw [List.nodup_append, List.nodup_cons] at hnodupk
    exact hnodupk.2.1.1 hak
  · exact hlist a (List.mem_append_left _ (List.mem_of_getLast? (hyoung.symm.trans ha)))
  · have herase : tasks.erase p = l₁ ++ l₂ := by
      rw [hl, List.erase_append_right _ hpl₁, List.erase_cons_head]
    have herasek : (kids (s.pptr p)).erase p = k₁ ++ k₂ := by
      rw [hk, List.erase_append_right _ hpk₁, List.erase_cons_head]
    have hsub : ∀ a ∈ initTask :: tasks.erase p, a ∈ initTask :: tasks := by
      intro a ha
      exact (List.mem_cons.1 ha).elim (fun h => h ▸ List.mem_cons_self)
        fun h => List.mem_cons_of_mem _ (List.mem_of_mem_erase h)
    refine ⟨?_, ?_, ?_, fun a b => ?_, fun a ha => ht.allocated a (hsub a ha), ht.below⟩
    · rw [herase]
      exact hring.unlink hnodup
    · exact ht.nodup.sublist (List.erase_sublist.cons_cons initTask)
    · rw [herasek]
      exact ht.family.unlink hk
    · have hnd : tasks.Nodup := (List.nodup_cons.1 ht.nodup).2
      by_cases hb : b = s.pptr p
      · subst hb
        rw [Function.update_self, (ht.family.nodup _).mem_erase_iff, hnd.mem_erase_iff, ht.mem_kids]
        exact and_assoc.symm
      · rw [update_of_ne hb, ht.mem_kids, hnd.mem_erase_iff]
        constructor
        · rintro ⟨ha, hpb⟩
          exact ⟨⟨fun h => hb (h ▸ hpb.symm), ha⟩, hpb⟩
        · rintro ⟨⟨-, ha⟩, hpb⟩
          exact ⟨ha, hpb⟩

theorem linkChild_eq (hparent : s.allocated (s.pptr p) = true)
    (hc : ∀ a, s.cptr (s.pptr p) = some a → s.allocated a = true) :
    linkChild p s = .ok (s.relink s.nextTask s.prevTask (update s.cptr (s.pptr p) (some p))
      (updateAt s.ysptr (s.cptr (s.pptr p)) (some p)) (update s.osptr p (s.cptr (s.pptr p)))) := by
  simp only [linkChild, State.relink, State.deref, hparent, if_true, ok_bind, Function.update_self]
  cases hk : s.cptr (s.pptr p) with
  | none => rfl
  | some a =>
      simp only [hc a hk, if_true]
      rfl

/-- A new task is put in at the end of the ring, and before the children of its parent. -/
theorem Tree.linked (ht : Tree none s tasks kids) (hp : p ∉ initTask :: tasks) (halloc : s.allocated p = true)
    (hparent : s.pptr p ∈ initTask :: tasks) :
    ∃ n pr c y o, setLinks p s = .ok (s.relink n pr c y o) ∧
      Tree none (s.relink n pr c y o) (tasks ++ [p])
        (update kids (s.pptr p) (p :: kids (s.pptr p))) := by
  have hinit : initTask ∈ initTask :: tasks := List.mem_cons_self
  have hpi : initTask ≠ p := fun h => hp (h ▸ hinit)
  have hlast := ht.allocated _ (ht.ring.prev_mem hinit)
  have hnokid : ∀ r, p ∉ kids r := fun r h => hp (List.mem_cons_of_mem _ ((ht.mem_kids p r).1 h).1)
  have heq : setLinks p s = .ok (s.relink (update (update s.nextTask p initTask) (s.prevTask initTask) p)
      (update (update s.prevTask p (s.prevTask initTask)) initTask p) (update s.cptr (s.pptr p) (some p))
      (updateAt (update s.ysptr p none) (s.cptr (s.pptr p)) (some p)) (update s.osptr p (s.cptr (s.pptr p)))) := by
    simp only [setLinks, State.deref, halloc, ht.allocated initTask hinit, if_true, ok_bind, update_of_ne hpi, hlast]
    exact linkChild_eq (ht.allocated _ hparent) fun a ha => ht.allocated_cptr ha
  refine ⟨_, _, _, _, _, heq, ?_, ?_, ?_, fun a b => ?_, fun a ha => ?_, ht.below⟩
  · exact ht.ring.append ht.nodup hp
  · have hnodup : ((initTask :: tasks) ++ [p]).Nodup :=
      List.nodup_append.2 ⟨ht.nodup, List.nodup_singleton p, fun a ha b hb hab => by
        rw [List.mem_singleton] at hb
        exact hp (hb ▸ hab ▸ ha)⟩
    exact hnodup
  · have hfamily : Family none s.cptr (update s.ysptr p none) s.osptr kids :=
      ht.family.congr (fun a b ha => update_of_ne (ne_of_mem_of_not_mem ha (hnokid b)) ..) fun _ _ _ => rfl
    exact hfamily.push hnokid (Function.update_self ..) (Option.some_ne_none _)
  · by_cases hb : b = s.pptr p
    · subst hb
      rw [Function.update_self, List.mem_cons, List.mem_append, List.mem_singleton, ht.mem_kids]
      constructor
      · rintro (rfl | ⟨ha, hpb⟩)
        · exact ⟨.inr rfl, rfl⟩
        · exact ⟨.inl ha, hpb⟩
      · rintro ⟨ha | rfl, hpb⟩
        · exact .inr ⟨ha, hpb⟩
        · exact .inl rfl
    · rw [update_of_ne hb, ht.mem_kids, List.mem_append, List.mem_singleton]
      constructor
      · rintro ⟨ha, hpb⟩
        exact ⟨.inl ha, hpb⟩
      · rintro ⟨ha | rfl, hpb⟩
        · exact ⟨ha, hpb⟩
        · exact absurd hpb.symm hb
  · rw [← List.cons_append, List.mem_append, List.mem_singleton] at ha
    rcases ha with ha | rfl
    · exact ht.allocated a ha
    · exact halloc

/-- A task goes to the parent `q`, and perhaps to another creator. -/
theorem Tree.relinked (ht : Tree none s tasks kids) (hp : p ∈ tasks) (hparent : s.pptr p ∈ initTask :: tasks)
    (hq : q ∈ initTask :: tasks) (hqp : q ≠ p) (f : TaskId → TaskId) :
    ∃ n pr c y o n' pr' c' y' o' kids', removeLinks p s = .ok (s.relink n pr c y o) ∧
      setLinks p { s.relink n pr c y o with pptr := update s.pptr p q, opptr := f } =
        .ok ({ s with pptr := update s.pptr p q, opptr := f }.relink n' pr' c' y' o') ∧
      Tree none ({ s with pptr := update s.pptr p q, opptr := f }.relink n' pr' c' y' o')
        (tasks.erase p ++ [p]) kids' := by
  obtain ⟨n, pr, c, y, o, hremove, ht'⟩ := ht.unlinked hp hparent
  have hnd : tasks.Nodup := (List.nodup_cons.1 ht.nodup).2
  have hout : p ∉ tasks.erase p := hnd.not_mem_erase
  have hpall : p ∉ initTask :: tasks.erase p := fun h => (List.mem_cons.1 h).elim (ht.task_ne hp) hout
  have hqall : q ∈ initTask :: tasks.erase p :=
    (List.mem_cons.1 hq).elim (fun h => h ▸ List.mem_cons_self)
      fun h => List.mem_cons_of_mem _ ((List.mem_erase_of_ne hqp).2 h)
  have ht₂ : Tree none { s.relink n pr c y o with pptr := update s.pptr p q, opptr := f } (tasks.erase p)
      (update kids (s.pptr p) ((kids (s.pptr p)).erase p)) := by
    refine ⟨ht'.ring, ht'.nodup, ht'.family, fun a b => ?_, ht'.allocated, ht'.below⟩
    rw [ht'.mem_kids]
    refine and_congr_right fun ha => ?_
    have hap : a ≠ p := fun h => hout (h ▸ ha)
    exact iff_of_eq (congrArg (· = b) (update_of_ne hap ..).symm)
  have hpq : ({ s.relink n pr c y o with pptr := update s.pptr p q, opptr := f } : State).pptr p = q :=
    Function.update_self ..
  obtain ⟨n', pr', c', y', o', hset, ht₃⟩ :=
    ht₂.linked hpall (ht.allocated_of_mem hp) (hpq.symm ▸ hqall)
  exact ⟨n, pr, c, y, o, n', pr', c', y', o', _, hremove, hset, ht₃⟩

/-! ### Thread groups -/

theorem threadAdd_eq (h : s.allocated (s.threadNext q) = true) :
    threadAdd p q s = .ok { s with
      threadNext := update (update s.threadNext p (s.threadNext q)) q p
      threadPrev := update (update s.threadPrev (s.threadNext q) p) p q } := by
  simp only [threadAdd, State.deref, h, if_true, ok_bind]
  rfl

theorem threadDel_eq (hnext : s.allocated (s.threadNext p) = true) (hprev : s.allocated (s.threadPrev p) = true) :
    threadDel p s = .ok { s with
      threadNext := update s.threadNext (s.threadPrev p) (s.threadNext p)
      threadPrev := update s.threadPrev (s.threadNext p) (s.threadPrev p) } := by
  simp only [threadDel, State.deref, hnext, hprev, if_true, ok_bind]
  rfl

/-- The ring of tasks, the rows of children, and thread groups that are rings of tasks. -/
structure Woven (loose : Option TaskId) (s : State) (tasks : List TaskId) (kids : TaskId → List TaskId) : Prop where
  tree : Tree loose s tasks kids
  threads : Links (· ∈ initTask :: tasks) s.threadNext s.threadPrev

/-- To be in the thread group of `p`. -/
def State.SameGroup (s : State) (p q : TaskId) : Prop := Reach s.threadNext p q

theorem finite_mem (l : List TaskId) : {p | p ∈ l}.Finite := List.finite_toSet l

theorem Woven.group_mem (hw : Woven loose s tasks kids) (hp : p ∈ initTask :: tasks) (hq : s.SameGroup p q) :
    q ∈ initTask :: tasks :=
  hw.threads.reach_mem hp hq

theorem Woven.group_symm (hw : Woven loose s tasks kids) (hp : p ∈ initTask :: tasks) (hq : s.SameGroup p q) :
    s.SameGroup q p :=
  hw.threads.reach_symm (finite_mem _) hp hq

/-- The loop over the other threads of a group meets each of them once. -/
theorem Woven.otherThreads (hw : Woven loose s tasks kids) (hp : p ∈ initTask :: tasks) :
    ∃ l, s.otherThreads p = .ok l ∧ Ring s.threadNext s.threadPrev p l ∧ (p :: l).Nodup ∧
      ∀ q, q ∈ p :: l ↔ s.SameGroup p q := by
  obtain ⟨l, hring, hnodup, hmem⟩ := hw.threads.exists_ring (finite_mem _) hp
  have hall : ∀ a ∈ p :: l, s.allocated a = true := fun a ha =>
    hw.tree.allocated a (hw.group_mem hp ((hmem a).1 ha))
  have hlength : l.length < s.top := length_le_of_below hnodup fun a ha => hw.tree.below a (hall a ha)
  exact ⟨l, walk_eq hring hnodup (fun a ha => hall a (List.mem_cons_of_mem p ha)) hlength.le, hring, hnodup, hmem⟩

/-- The first of the other threads that is not exiting. -/
theorem Woven.aliveThread (hw : Woven loose s tasks kids) (hp : p ∈ initTask :: tasks) :
    ∃ l, s.otherThreads p = .ok l ∧ (∀ q ∈ l, s.SameGroup p q ∧ q ≠ p) ∧
      s.aliveThread p (s.top + 1) p = .ok ((l.find? fun q => !s.exiting q).getD p) := by
  obtain ⟨l, hothers, hring, hnodup, hmem⟩ := hw.otherThreads hp
  have hall : ∀ a ∈ p :: l, s.allocated a = true := fun a ha =>
    hw.tree.allocated a (hw.group_mem hp ((hmem a).1 ha))
  have hlength : l.length < s.top := length_le_of_below hnodup fun a ha => hw.tree.below a (hall a ha)
  have hne : ∀ q ∈ l, q ≠ p := fun q hq heq => (List.nodup_cons.1 hnodup).1 (heq ▸ hq)
  -- By induction on the threads that are still ahead of `a`.
  have hloop : ∀ (l : List TaskId) (a : TaskId) (fuel : Nat),
      (a :: l ++ [p]).IsChain (fun a b => s.threadNext a = b ∧ s.threadPrev b = a) →
      (∀ b ∈ l, s.allocated b = true ∧ b ≠ p) → l.length < fuel →
      s.aliveThread p fuel a = .ok ((l.find? fun b => !s.exiting b).getD p) := by
    intro l
    induction l with
    | nil =>
        intro a fuel hchain _ hfuel
        rw [List.cons_append, List.nil_append, List.isChain_pair] at hchain
        obtain ⟨fuel, rfl⟩ := Nat.exists_eq_succ_of_ne_zero hfuel.ne'
        rw [State.aliveThread, hchain.1, deref_eq (hall p List.mem_cons_self), ok_bind, if_pos (.inr rfl)]
        rfl
    | cons b l ih =>
        intro a fuel hchain hl hfuel
        rw [List.cons_append, List.cons_append, List.isChain_cons_cons] at hchain
        obtain ⟨fuel, rfl⟩ := Nat.exists_eq_succ_of_ne_zero (Nat.zero_lt_of_lt hfuel).ne'
        obtain ⟨halloc, hbp⟩ := hl b List.mem_cons_self
        rw [State.aliveThread, hchain.1.1, deref_eq halloc, ok_bind]
        cases hb : s.exiting b with
        | false =>
            rw [if_pos (.inl rfl), List.find?_cons_of_pos (by rw [hb]; rfl)]
            rfl
        | true =>
            rw [List.find?_cons_of_neg (by rw [hb]; exact Bool.false_ne_true),
              if_neg (not_or.2 ⟨Bool.true_eq_false.mp, hbp⟩)]
            exact ih b fuel hchain.2 (fun c hc => hl c (List.mem_cons_of_mem b hc)) (Nat.lt_of_succ_lt_succ hfuel)
  exact ⟨l, hothers, fun q hq => ⟨(hmem q).1 (List.mem_cons_of_mem p hq), hne q hq⟩,
    hloop l p (s.top + 1) hring (fun q hq => ⟨hall q (List.mem_cons_of_mem p hq), hne q hq⟩) (by omega)⟩

end MagicKernel.Proc
