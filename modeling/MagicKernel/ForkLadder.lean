import MagicKernel.ForkModel

/-! A fork that fails. Each label of the ladder gives back what the acquisitions before it took, so a fork that
leaves through the ladder leaves every count as it was. The failing `kmalloc` of the list head returns past
the ladder, and keeps everything. -/

namespace MagicKernel.Fork

open FaultMachine

/-! ### References of the child -/

/-- The child's part in a reference count. -/
def share (taken : List Kind) (t : Task) (k : Kind) (r : Ref) : Int32 :=
  if k ∈ taken ∧ r = t.ref k ∧ r ≠ 0 then 1 else 0

/-- The counts are those of `base` and, for the kinds that have been taken, the references of the child `p`;
nothing else has changed that the labels below look at. -/
structure Owes (base s : State) (p : TaskId) (taken : List Kind) : Prop where
  count : ∀ k r, s.count k r = base.count k r + share taken (s.task p) k r
  processes : s.processes = base.processes
  useCount : s.useCount = base.useCount
  inUse : s.inUse = base.inUse
  pid : (s.task p).pid = (base.task p).pid
  user : (s.task p).ref .user = (base.task p).ref .user
  execModule : (s.task p).execModule = (base.task p).execModule
  binfmtModule : (s.task p).binfmtModule = (base.task p).binfmtModule
  others : ∀ q ≠ p, s.task q = base.task q

/-- What has not been taken the child has from its parent. -/
def Inherits (s : State) (current p : TaskId) (taken : List Kind) : Prop :=
  ∀ k ∉ taken, (s.task p).ref k = (s.task current).ref k

section Counts

variable {s : State} {p q : TaskId} {k k' : Kind} {r r' : Ref}

theorem count_atomicSet (s : State) (k : Kind) (r : Ref) (n : Int32) (k' : Kind) (r' : Ref) :
    (s.atomicSet k r n).count k' r' = if k' = k ∧ r' = r then n else s.count k' r' := by
  rw [State.atomicSet]
  dsimp only
  by_cases hk : k' = k
  · subst hk
    rw [Function.update_self, Function.update_apply]
    by_cases hr : r' = r
    · rw [if_pos hr, if_pos ⟨rfl, hr⟩]
    · rw [if_neg hr, if_neg fun h => hr h.2]
  · rw [Function.update_of_ne hk, if_neg fun h => hk h.1]

theorem atomicSet_atomicSet (s : State) (k : Kind) (r : Ref) (m n : Int32) :
    (s.atomicSet k r m).atomicSet k r n = s.atomicSet k r n := by
  simp only [State.atomicSet, Function.update_self, Function.update_idem]

theorem atomicSet_count (s : State) (k : Kind) (r : Ref) : s.atomicSet k r (s.count k r) = s := by
  simp only [State.atomicSet, Function.update_eq_self]

theorem task_setRef_self (s : State) (p : TaskId) (k : Kind) (r : Ref) :
    (s.setRef p k r).task p = { s.task p with ref := Function.update (s.task p).ref k r } :=
  Function.update_self _ _ _

theorem task_setRef_of_ne (hq : q ≠ p) : (s.setRef p k r).task q = s.task q := Function.update_of_ne hq _ _

theorem ref_setRef_self : ((s.setRef p k r).task p).ref k = r := by
  rw [task_setRef_self]
  exact Function.update_self _ _ _

theorem ref_setRef_of_ne (hk : k' ≠ k) : ((s.setRef p k r).task p).ref k' = (s.task p).ref k' := by
  rw [task_setRef_self]
  exact Function.update_of_ne hk _ _

theorem share_cons_of_ne (hk : k' ≠ k) (taken : List Kind) (t : Task) (r : Ref) :
    share (k :: taken) t k' r = share taken t k' r := by
  rw [share, share]
  simp only [List.mem_cons, hk, false_or]

theorem share_of_not_mem {taken : List Kind} (hk : k ∉ taken) (t : Task) (r : Ref) : share taken t k r = 0 :=
  if_neg fun h => hk h.1

theorem share_cons_self (taken : List Kind) (t : Task) (r : Ref) :
    share (k :: taken) t k r = if r = t.ref k ∧ r ≠ 0 then 1 else 0 := by
  rw [share]
  simp only [List.mem_cons_self, true_and]

/-- A pointer to nothing has no share. -/
theorem share_cons_null {taken : List Kind} {t : Task} (hk : k ∉ taken) (hnull : t.ref k = 0) (k' : Kind) (r : Ref) :
    share (k :: taken) t k' r = share taken t k' r := by
  by_cases heq : k' = k
  · subst heq
    rw [share_of_not_mem hk, share_cons_self, hnull, if_neg fun hr => hr.2 hr.1]
  · rw [share_cons_of_ne heq]

theorem share_congr {taken : List Kind} {t t' : Task} (h : k ∈ taken → t'.ref k = t.ref k) (r : Ref) :
    share taken t' k r = share taken t k r := by
  by_cases hk : k ∈ taken
  · rw [share, share, h hk]
  · rw [share_of_not_mem hk, share_of_not_mem hk]

end Counts

/-! ### Taking and giving back -/

section Owes

variable {base s : State} {p : TaskId} {taken : List Kind} {k : Kind} {r : Ref}

theorem Owes.setRef (h : Owes base s p taken) (hk : k ∉ taken) (huser : k ≠ .user) :
    Owes base (s.setRef p k r) p taken where
  count k' r' := by
    have hsame : k' ∈ taken → ((s.setRef p k r).task p).ref k' = (s.task p).ref k' := by
      intro hk'
      exact ref_setRef_of_ne fun heq => hk (heq ▸ hk')
    rw [share_congr hsame]
    exact h.count k' r'
  processes := h.processes
  useCount := h.useCount
  inUse := h.inUse
  pid := by
    rw [task_setRef_self]
    exact h.pid
  user := (ref_setRef_of_ne (Ne.symm huser)).trans h.user
  execModule := by
    rw [task_setRef_self]
    exact h.execModule
  binfmtModule := by
    rw [task_setRef_self]
    exact h.binfmtModule
  others q hq := (task_setRef_of_ne hq).trans (h.others q hq)

/-- There was nothing to take. -/
theorem Owes.nothing (h : Owes base s p taken) (hk : k ∉ taken) (hnull : (s.task p).ref k = 0) :
    Owes base s p (k :: taken) where
  __ := h
  count k' r' := by
    rw [h.count k' r', share_cons_null hk hnull]

/-- A reference to the structure that the child points to is taken. -/
theorem Owes.atomicInc (h : Owes base s p taken) (hk : k ∉ taken) (href : (s.task p).ref k = r) (hr : r ≠ 0) :
    Owes base (s.atomicInc k r) p (k :: taken) where
  __ := h
  count k' r' := by
    rw [State.atomicInc, count_atomicSet]
    show _ = base.count k' r' + share (k :: taken) (s.task p) k' r'
    by_cases heq : k' = k
    · subst heq
      rw [share_cons_self, href]
      by_cases hr' : r' = r
      · rw [if_pos ⟨rfl, hr'⟩, hr', if_pos ⟨rfl, hr⟩, h.count, share_of_not_mem hk, Int32.add_zero]
      · rw [if_neg fun hboth => hr' hboth.2, if_neg fun hboth => hr' hboth.1, h.count, share_of_not_mem hk]
    · rw [if_neg fun hboth => heq hboth.1, share_cons_of_ne heq]
      exact h.count k' r'

/-- The reference of the child is given back. -/
theorem Owes.exitRef (h : Owes base s p (k :: taken)) (hk : k ∉ taken) (huser : k ≠ .user) :
    Owes base (exitRef k p s) p taken := by
  unfold Fork.exitRef
  dsimp only
  split
  · rename_i hnull
    exact { h with count := fun k' r' => (h.count k' r').trans (by rw [share_cons_null hk hnull]) }
  · rename_i hnull
    refine ⟨fun k' r' => ?_, h.processes, h.useCount, h.inUse, ?_, ?_, ?_, ?_, ?_⟩
    · rw [State.atomicDec, count_atomicSet]
      show (if k' = k ∧ r' = (s.task p).ref k then s.count k ((s.task p).ref k) - 1 else s.count k' r') =
        base.count k' r' + share taken ((s.setRef p k 0).task p) k' r'
      by_cases heq : k' = k
      · subst heq
        rw [share_of_not_mem hk, Int32.add_zero]
        by_cases hr' : r' = (s.task p).ref k'
        · rw [if_pos ⟨rfl, hr'⟩, hr', h.count, share_cons_self, if_pos ⟨rfl, hnull⟩, Int32.add_sub_cancel]
        · rw [if_neg fun hboth => hr' hboth.2, h.count, share_cons_self, if_neg fun hboth => hr' hboth.1,
            Int32.add_zero]
      · rw [if_neg fun hboth => heq hboth.1, h.count, share_cons_of_ne heq]
        rw [share_congr fun _ => ref_setRef_of_ne heq]
    · show ((s.setRef p k 0).task p).pid = _
      rw [task_setRef_self]
      exact h.pid
    · exact (ref_setRef_of_ne (Ne.symm huser)).trans h.user
    · show ((s.setRef p k 0).task p).execModule = _
      rw [task_setRef_self]
      exact h.execModule
    · show ((s.setRef p k 0).task p).binfmtModule = _
      rw [task_setRef_self]
      exact h.binfmtModule
    · intro q hq
      exact (task_setRef_of_ne hq).trans (h.others q hq)

theorem Owes.count_eq (h : Owes base s p taken) (hk : k ∉ taken) (r : Ref) : s.count k r = base.count k r := by
  rw [h.count, share_of_not_mem hk, Int32.add_zero]

theorem atomicSet_of_free (hfree : s.count k r = 0) : s.atomicSet k r 1 = s.atomicInc k r := by
  rw [State.atomicInc, hfree]
  rfl

/-- A structure of the child's own. -/
theorem Owes.fresh (h : Owes base s p taken) (hk : k ∉ taken) (huser : k ≠ .user) (hr : r ≠ 0)
    (hfree : base.count k r = 0) : Owes base ((s.setRef p k r).atomicSet k r 1) p (k :: taken) := by
  have hset : Owes base (s.setRef p k r) p taken := h.setRef hk huser
  rw [atomicSet_of_free ((hset.count_eq hk r).trans hfree)]
  exact hset.atomicInc hk ref_setRef_self hr

theorem free_atomicSet (hfree : s.count k r = 0) : (s.atomicSet k r 1).kmemCacheFree k r = s := by
  rw [State.kmemCacheFree, atomicSet_atomicSet, ← hfree, atomicSet_count]

theorem dec_atomicSet (hfree : s.count k r = 0) : (s.atomicSet k r 1).atomicDec k r = s := by
  have hone : (s.atomicSet k r 1).count k r - 1 = s.count k r := by
    rw [count_atomicSet, if_pos ⟨rfl, rfl⟩, hfree]
    rfl
  rw [State.atomicDec, hone, atomicSet_atomicSet, atomicSet_count]

theorem dec_atomicInc (s : State) (k : Kind) (r : Ref) : (s.atomicInc k r).atomicDec k r = s := by
  have hback : (s.atomicInc k r).count k r - 1 = s.count k r := by
    rw [State.atomicInc, count_atomicSet, if_pos ⟨rfl, rfl⟩, Int32.add_sub_cancel]
  rw [State.atomicDec, hback, State.atomicInc, atomicSet_atomicSet, atomicSet_count]

/-- Another count is set between the two. -/
theorem dec_atomicSet_inc {r' : Ref} (hr : r ≠ r') (n : Int32) :
    ((s.atomicInc k r).atomicSet k r' n).atomicDec k r = s.atomicSet k r' n := by
  have hback : ((s.atomicInc k r).atomicSet k r' n).count k r - 1 = s.count k r := by
    rw [count_atomicSet, if_neg fun h => hr h.2, State.atomicInc, count_atomicSet, if_pos ⟨rfl, rfl⟩,
      Int32.add_sub_cancel]
  have hsame : Function.update (Function.update (s.count k) r' n) r (s.count k r) =
      Function.update (s.count k) r' n := by
    rw [Function.update_comm (Ne.symm hr), Function.update_eq_self]
  rw [State.atomicDec, hback]
  simp only [State.atomicInc, State.atomicSet, Function.update_self, Function.update_idem, Function.update_comm hr,
    hsame]

end Owes

section Inherits

variable {s : State} {current p : TaskId} {taken : List Kind}

theorem Inherits.cons (h : Inherits s current p taken) (k : Kind) : Inherits s current p (k :: taken) :=
  fun k' hk' => h k' fun hmem => hk' (List.mem_cons_of_mem k hmem)

theorem Inherits.setRef {k : Kind} (h : Inherits s current p (k :: taken)) (hne : current ≠ p) (r : Ref) :
    Inherits (s.setRef p k r) current p (k :: taken) := by
  intro k' hk'
  have hkk : k' ≠ k := fun heq => hk' (heq ▸ List.mem_cons_self)
  rw [ref_setRef_of_ne hkk, task_setRef_of_ne hne]
  exact h k' hk'

end Inherits

/-! ### The copies -/

/-- What a copy leaves: if it fails the child owes what it did before, and else one reference more. -/
def Copied (base : State) (current p : TaskId) (taken : List Kind) (k : Kind) (x : Int × State) : Prop :=
  (x.1 ≠ 0 → Owes base x.2 p taken) ∧
    (x.1 = 0 → Owes base x.2 p (k :: taken) ∧ Inherits x.2 current p (k :: taken))

section Copies

variable {base s : State} {current p : TaskId} {taken : List Kind} {k : Kind} {o : Outcomes}

theorem Copied.failed (h : Owes base s p taken) {e : Int} (he : e ≠ 0) : Copied base current p taken k (e, s) :=
  ⟨fun _ => h, fun hzero => absurd hzero he⟩

theorem Copied.done (h : Owes base s p (k :: taken)) (hinherits : Inherits s current p (k :: taken)) :
    Copied base current p taken k (0, s) :=
  ⟨fun hne => absurd rfl hne, fun _ => ⟨h, hinherits⟩⟩

theorem copyFiles_copied (flags : UInt32) (howes : Owes base s p taken) (hinherits : Inherits s current p taken)
    (hne : current ≠ p) (hk : .files ∉ taken) (hfresh : o.new .files ≠ 0 → base.count .files (o.new .files) = 0) :
    Copied base current p taken .files (copyFiles flags current p o s) := by
  have hshared := hinherits .files hk
  unfold copyFiles
  dsimp only
  split
  · rename_i hnull
    exact .done (howes.nothing hk (hshared.trans hnull)) (hinherits.cons _)
  rename_i hnull
  split
  · exact .done (howes.atomicInc hk hshared hnull) (hinherits.cons _)
  have hcleared : Owes base (s.setRef p .files 0) p taken := howes.setRef hk (by decide)
  split
  · exact .failed hcleared (by decide)
  rename_i hnew
  split
  · rename_i herror
    rw [free_atomicSet ((hcleared.count_eq hk _).trans (hfresh hnew))]
    exact .failed hcleared herror
  · exact .done (hcleared.fresh hk (by decide) hnew (hfresh hnew)) (((hinherits.cons _).setRef hne 0).setRef hne _)

theorem shareOrCopy_copied (shared : Bool) (howes : Owes base s p taken) (hinherits : Inherits s current p taken)
    (hne : current ≠ p) (hk : k ∉ taken) (huser : k ≠ .user)
    (hfresh : o.new k ≠ 0 → base.count k (o.new k) = 0) :
    Outcome (fun _ => True) (Copied base current p taken k) (shareOrCopy k shared current p o s) := by
  unfold shareOrCopy
  dsimp only
  split
  · split
    · exact .error trivial
    · rename_i hnull
      exact .ok (.done (howes.atomicInc hk (hinherits k hk) hnull) (hinherits.cons _))
  · split
    · exact .ok (.failed (howes.setRef hk huser) (by decide))
    rename_i hnew
    split
    · exact .error trivial
    · exact .ok (.done (howes.fresh hk huser hnew (hfresh hnew)) ((hinherits.cons _).setRef hne _))

theorem copyMm_copied (flags : UInt32) (howes : Owes base s p taken) (hinherits : Inherits s current p taken)
    (hne : current ≠ p) (hk : .mm ∉ taken) (hfresh : o.new .mm ≠ 0 → base.count .mm (o.new .mm) = 0) :
    Copied base current p taken .mm (copyMm flags current p o s) := by
  have hcleared : Owes base (s.setRef p .mm 0) p taken := howes.setRef hk (by decide)
  have hinherits' : Inherits (s.setRef p .mm 0) current p (.mm :: taken) := (hinherits.cons _).setRef hne 0
  unfold copyMm
  dsimp only
  split
  · exact .done (hcleared.nothing hk ref_setRef_self) hinherits'
  rename_i hnull
  split
  · have hset : Owes base ((s.setRef p .mm 0).setRef p .mm ((s.task current).ref .mm)) p taken :=
      hcleared.setRef hk (by decide)
    exact .done (hset.atomicInc hk ref_setRef_self hnull) (hinherits'.setRef hne _)
  split
  · exact .failed hcleared (by decide)
  rename_i hnew
  have hfree := (hcleared.count_eq hk _).trans (hfresh hnew)
  split
  · rw [free_atomicSet hfree]
    exact .failed hcleared (by decide)
  split
  · rw [dec_atomicSet hfree]
    exact .failed hcleared (by decide)
  split
  · rename_i herror
    rw [dec_atomicSet hfree]
    exact .failed hcleared herror
  · exact .done (hcleared.fresh hk (by decide) hnew (hfresh hnew)) (hinherits'.setRef hne _)

theorem copyNamespace_copied (flags : UInt32) (howes : Owes base s p taken) (hinherits : Inherits s current p taken)
    (hne : current ≠ p) (hk : .nameSpace ∉ taken)
    (hfresh : o.new .nameSpace ≠ 0 → base.count .nameSpace (o.new .nameSpace) = 0)
    (hother : o.new .nameSpace ≠ 0 → o.new .nameSpace ≠ (s.task p).ref .nameSpace) :
    Copied base current p taken .nameSpace (copyNamespace flags p o s) := by
  unfold copyNamespace
  dsimp only
  split
  · rename_i hnull
    exact .done (howes.nothing hk hnull) (hinherits.cons _)
  rename_i hnull
  split
  · exact .done (howes.atomicInc hk rfl hnull) (hinherits.cons _)
  split
  · rw [dec_atomicInc]
    exact .failed howes (by decide)
  split
  · rw [dec_atomicInc]
    exact .failed howes (by decide)
  rename_i hnew
  have hback := dec_atomicSet_inc (k := .nameSpace) (s := s.setRef p .nameSpace (o.new .nameSpace))
    (Ne.symm (hother hnew)) 1
  have hcommute : (((s.atomicInc .nameSpace ((s.task p).ref .nameSpace)).atomicSet .nameSpace
        (o.new .nameSpace) 1).setRef p .nameSpace (o.new .nameSpace)).atomicDec .nameSpace
        ((s.task p).ref .nameSpace) =
      (s.setRef p .nameSpace (o.new .nameSpace)).atomicSet .nameSpace (o.new .nameSpace) 1 := hback
  rw [hcommute]
  exact .done (howes.fresh hk (by decide) hnew (hfresh hnew)) ((hinherits.cons _).setRef hne _)

end Copies

/-! ### The bottom of the ladder -/

/-- Everything that the fork has taken has been given back: all counts are as they were, and so is what is in use
of the task structures. -/
structure Released (s t : State) : Prop where
  count : t.count = s.count
  processes : t.processes = s.processes
  useCount : t.useCount = s.useCount
  inUse : t.inUse = s.inUse

section Bottom

variable {s t : State} {p : TaskId}

/-- The state in which the fork has its new task structure. -/
def withTask (current p : TaskId) (s : State) : State :=
  { s with inUse := Function.update s.inUse p true }.modTask p fun _ => s.task current

theorem inUse_free (hfree : s.inUse p = false) :
    Function.update (Function.update s.inUse p true) p false = s.inUse := by
  rw [Function.update_idem, ← hfree, Function.update_eq_self]

theorem released_free (current : TaskId) (hfree : s.inUse p = false) :
    Released s (badForkFree p (withTask current p s)) :=
  ⟨rfl, rfl, rfl, inUse_free hfree⟩

theorem badForkCleanupCount_eq {user : Ref} (hsame : (t.task p).ref .user = user) (huser : user ≠ 0) :
    badForkCleanupCount p t = { t.atomicDec .user user with
      processes := Function.update t.processes user (t.processes user - 1)
      inUse := Function.update t.inUse p false } := by
  unfold badForkCleanupCount freeUid
  rw [hsame]
  dsimp only
  rw [if_neg huser]
  rfl

/-- What `bad_fork_cleanup_count` has to find for the fork to leave no trace. -/
theorem released_count (current : TaskId) {user : Ref} (hfree : s.inUse p = false) (hsame : (t.task p).ref .user = user)
    (huser : user ≠ 0) (hcount : t.count = (s.atomicInc .user user).count)
    (hprocesses : t.processes = Function.update s.processes user (s.processes user + 1))
    (huse : t.useCount = s.useCount) (hinUse : t.inUse = (withTask current p s).inUse) :
    Released s (badForkCleanupCount p t) := by
  rw [badForkCleanupCount_eq hsame huser]
  refine ⟨?_, ?_, huse, ?_⟩
  · have hback := congrArg State.count (dec_atomicInc s .user user)
    show (t.atomicDec .user user).count = s.count
    rw [State.atomicDec, State.atomicSet, hcount]
    exact hback
  · show Function.update t.processes user (t.processes user - 1) = s.processes
    rw [hprocesses, Function.update_self, Function.update_idem, Int32.add_sub_cancel, Function.update_eq_self]
  · show Function.update t.inUse p false = s.inUse
    rw [hinUse]
    exact inUse_free hfree

theorem useCount_modInc (s : State) (m x : Ref) :
    (s.modIncUseCount m).useCount x = s.useCount x + if m ≠ 0 ∧ x = m then 1 else 0 := by
  rw [State.modIncUseCount]
  dsimp only
  by_cases hm : m = 0
  · rw [if_pos hm, if_neg fun h => h.1 hm, Int32.add_zero]
  · rw [if_neg hm, Function.update_apply]
    by_cases hx : x = m
    · rw [if_pos hx, if_pos ⟨hm, hx⟩, hx]
    · rw [if_neg hx, if_neg fun h => hx h.2, Int32.add_zero]

theorem useCount_modDec (s : State) (m x : Ref) :
    (s.modDecUseCount m).useCount x = s.useCount x - if m ≠ 0 ∧ x = m then 1 else 0 := by
  rw [State.modDecUseCount]
  dsimp only
  by_cases hm : m = 0
  · rw [if_pos hm, if_neg fun h => h.1 hm, Int32.sub_zero]
  · rw [if_neg hm, Function.update_apply]
    by_cases hx : x = m
    · rw [if_pos hx, if_pos ⟨hm, hx⟩, hx]
    · rw [if_neg hx, if_neg fun h => hx h.2, Int32.sub_zero]

/-- The state in which the fork has everything but the copies. -/
def beforeCopies (cloneFlags : UInt32) (current p : TaskId) (o : Outcomes) (s : State) : State :=
  let s := getModules p (countProcess p (withTask current p s))
  s.modTask p fun t => { t with pid := getPid cloneFlags current o s }

theorem task_withTask (current p : TaskId) (s : State) : (withTask current p s).task p = s.task current :=
  Function.update_self _ _ _

theorem countProcess_withTask (current p : TaskId) (s : State) :
    (countProcess p (withTask current p s)).count = (s.atomicInc .user ((s.task current).ref .user)).count ∧
    (countProcess p (withTask current p s)).processes = Function.update s.processes ((s.task current).ref .user)
      (s.processes ((s.task current).ref .user) + 1) := by
  unfold countProcess
  rw [task_withTask]
  exact ⟨rfl, rfl⟩

theorem useCount_beforeCopies (flags : UInt32) (current p : TaskId) (o : Outcomes) (s : State) :
    (beforeCopies flags current p o s).useCount =
      ((s.modIncUseCount (s.task current).execModule).modIncUseCount (s.task current).binfmtModule).useCount := by
  have hmodules : (beforeCopies flags current p o s).useCount =
      ((s.modIncUseCount ((withTask current p s).task p).execModule).modIncUseCount
        ((withTask current p s).task p).binfmtModule).useCount := rfl
  rw [hmodules, task_withTask]

/-- The child has all fields of its parent but the process number. -/
theorem task_beforeCopies (flags : UInt32) (current p : TaskId) (o : Outcomes) (s : State) :
    ∃ pid, (beforeCopies flags current p o s).task p = { s.task current with pid := pid } := by
  have htask : (beforeCopies flags current p o s).task p = { (withTask current p s).task p with
      pid := getPid flags current o (getModules p (countProcess p (withTask current p s))) } :=
    Function.update_self _ _ _
  rw [task_withTask] at htask
  exact ⟨_, htask⟩

theorem released_cleanup {flags : UInt32} {current : TaskId} {o : Outcomes} (hfree : s.inUse p = false)
    (huser : (s.task current).ref .user ≠ 0) (howes : Owes (beforeCopies flags current p o s) t p []) :
    Released s (badForkCleanup p t) := by
  obtain ⟨hcount, hprocesses⟩ := countProcess_withTask current p s
  obtain ⟨pid, htask⟩ := task_beforeCopies flags current p o s
  have hsame : (t.task p).ref .user = (s.task current).ref .user := howes.user.trans (by rw [htask])
  refine released_count current hfree hsame huser ?_ ?_ ?_ howes.inUse
  · funext k r
    have hsame := howes.count k r
    rw [share_of_not_mem List.not_mem_nil, Int32.add_zero] at hsame
    exact hsame.trans (congrFun (congrFun hcount k) r)
  · exact howes.processes.trans hprocesses
  · funext x
    have hexec : (t.task p).execModule = (s.task current).execModule := howes.execModule.trans (by rw [htask])
    have hbinfmt : (t.task p).binfmtModule = (s.task current).binfmtModule := howes.binfmtModule.trans (by rw [htask])
    show ((t.modDecUseCount (t.task p).execModule).modDecUseCount (t.task p).binfmtModule).useCount x = s.useCount x
    rw [useCount_modDec, useCount_modDec, hexec, hbinfmt, howes.useCount, useCount_beforeCopies, useCount_modInc,
      useCount_modInc]
    grind

theorem released_cleanupFiles {flags : UInt32} {current : TaskId} {o : Outcomes} (hfree : s.inUse p = false)
    (huser : (s.task current).ref .user ≠ 0) (howes : Owes (beforeCopies flags current p o s) t p [.files]) :
    Released s (badForkCleanupFiles p t) :=
  released_cleanup hfree huser (howes.exitRef (by decide) (by decide))

theorem released_cleanupFs {flags : UInt32} {current : TaskId} {o : Outcomes} (hfree : s.inUse p = false)
    (huser : (s.task current).ref .user ≠ 0) (howes : Owes (beforeCopies flags current p o s) t p [.fs, .files]) :
    Released s (badForkCleanupFs p t) :=
  released_cleanupFiles hfree huser (howes.exitRef (by decide) (by decide))

theorem released_cleanupSighand {flags : UInt32} {current : TaskId} {o : Outcomes} (hfree : s.inUse p = false)
    (huser : (s.task current).ref .user ≠ 0) (howes : Owes (beforeCopies flags current p o s) t p [.sig, .fs, .files]) :
    Released s (badForkCleanupSighand p t) :=
  released_cleanupFs hfree huser (howes.exitRef (by decide) (by decide))

theorem released_cleanupMm {flags : UInt32} {current : TaskId} {o : Outcomes} (hfree : s.inUse p = false)
    (huser : (s.task current).ref .user ≠ 0)
    (howes : Owes (beforeCopies flags current p o s) t p [.mm, .sig, .fs, .files]) :
    Released s (badForkCleanupMm p t) :=
  released_cleanupSighand hfree huser (howes.exitRef (by decide) (by decide))

theorem released_cleanupNamespace {flags : UInt32} {current : TaskId} {o : Outcomes} (hfree : s.inUse p = false)
    (huser : (s.task current).ref .user ≠ 0)
    (howes : Owes (beforeCopies flags current p o s) t p [.nameSpace, .mm, .sig, .fs, .files]) :
    Released s (badForkCleanupNamespace p t) :=
  released_cleanupMm hfree huser (howes.exitRef (by decide) (by decide))

end Bottom

/-! ### When the fork gets as far as the list head -/

/-- The copies succeed for a parent `t`. -/
structure CopiesPass (flags : UInt32) (t : Task) (o : Outcomes) : Prop where
  files : t.ref .files = 0 ∨ flags &&& CLONE_FILES ≠ 0 ∨ o.new .files ≠ 0 ∧ o.fdError = 0
  fs : flags &&& CLONE_FS ≠ 0 ∨ o.new .fs ≠ 0
  sig : flags &&& CLONE_SIGHAND ≠ 0 ∨ o.new .sig ≠ 0
  mm : t.ref .mm = 0 ∨ flags &&& CLONE_VM ≠ 0 ∨
    o.new .mm ≠ 0 ∧ o.pgd = true ∧ o.newContext = 0 ∧ o.dupMmap = 0
  nameSpace : t.ref .nameSpace = 0 ∨ flags &&& CLONE_NEWNS = 0 ∨ o.sysAdmin = true ∧ o.new .nameSpace ≠ 0
  thread : o.copyThread = 0

section Errors

variable (flags : UInt32) (current p : TaskId) (o : Outcomes) (s : State)

theorem copyFiles_error : (copyFiles flags current p o s).1 = 0 ↔
    (s.task current).ref .files = 0 ∨ flags &&& CLONE_FILES ≠ 0 ∨ o.new .files ≠ 0 ∧ o.fdError = 0 := by
  unfold copyFiles
  dsimp only
  split
  · simp_all
  · split
    · simp_all
    · split
      · simp_all [ENOMEM]
      · split <;> simp_all

variable {current p o s} in
theorem shareOrCopy_error {k : Kind} {shared : Bool} {e : Int} {t : State}
    (h : shareOrCopy k shared current p o s = .ok (e, t)) :
    e = 0 ↔ shared = true ∨ o.new k ≠ 0 := by
  unfold shareOrCopy at h
  dsimp only at h
  split at h
  · split at h
    · cases h
    · cases h
      simp_all
  · split at h
    · cases h
      simp_all
    · split at h
      · cases h
      · cases h
        simp_all

theorem copyMm_error : (copyMm flags current p o s).1 = 0 ↔ (s.task current).ref .mm = 0 ∨ flags &&& CLONE_VM ≠ 0 ∨
    o.new .mm ≠ 0 ∧ o.pgd = true ∧ o.newContext = 0 ∧ o.dupMmap = 0 := by
  unfold copyMm
  dsimp only
  split
  · simp_all
  · split
    · simp_all
    · split
      · simp_all [ENOMEM]
      · split
        · simp_all [ENOMEM]
        · split
          · simp_all [ENOMEM]
          · split <;> simp_all

theorem copyNamespace_error : (copyNamespace flags p o s).1 = 0 ↔ (s.task p).ref .nameSpace = 0 ∨
    flags &&& CLONE_NEWNS = 0 ∨ o.sysAdmin = true ∧ o.new .nameSpace ≠ 0 := by
  unfold copyNamespace
  dsimp only
  split
  · simp_all
  · split
    · simp_all
    · split
      · simp_all [EPERM]
      · split
        · simp_all [ENOMEM]
        · simp_all

end Errors

/-! ### The fork -/

section Fork

variable {s t : State} {current p : TaskId} {o : Outcomes} {flags : UInt32} {r : Int}

/-- The copies of a fork that has its task structure `p`. -/
structure Forking (current p : TaskId) (o : Outcomes) (s : State) : Prop where
  other : current ≠ p
  free : s.inUse p = false
  user : (s.task current).ref .user ≠ 0
  lastPid : 0 ≤ o.lastPid
  new : ∀ k, o.new k ≠ 0 → s.count k (o.new k) = 0
  namespaceOther : o.new .nameSpace ≠ 0 → o.new .nameSpace ≠ (s.task current).ref .nameSpace

theorem Forking.fresh (h : Forking current p o s) {k : Kind} (hk : k ≠ .user) (hnew : o.new k ≠ 0) :
    (beforeCopies flags current p o s).count k (o.new k) = 0 := by
  have hcount : (beforeCopies flags current p o s).count = (countProcess p (withTask current p s)).count := rfl
  rw [hcount, (countProcess_withTask current p s).1, State.atomicInc, count_atomicSet, if_neg fun heq => hk heq.1]
  exact h.new k hnew

theorem task_current_beforeCopies (hne : current ≠ p) :
    (beforeCopies flags current p o s).task current = s.task current := by
  have htask : (beforeCopies flags current p o s).task current = (withTask current p s).task current :=
    Function.update_of_ne hne _ _
  exact htask.trans (Function.update_of_ne hne _ _)

theorem owes_beforeCopies (flags : UInt32) (current p : TaskId) (o : Outcomes) (s : State) :
    Owes (beforeCopies flags current p o s) (beforeCopies flags current p o s) p [] :=
  ⟨fun k r => by rw [share_of_not_mem List.not_mem_nil, Int32.add_zero], rfl, rfl, rfl, rfl, rfl, rfl, rfl,
    fun _ _ => rfl⟩

theorem inherits_beforeCopies (flags : UInt32) (o : Outcomes) (s : State) (hne : current ≠ p) :
    Inherits (beforeCopies flags current p o s) current p [] := by
  obtain ⟨pid, htask⟩ := task_beforeCopies flags current p o s
  intro k _
  rw [htask, task_current_beforeCopies hne]

theorem Forking.parent (h : Forking current p o s) {u : State} {taken : List Kind}
    (howes : Owes (beforeCopies flags current p o s) u p taken) : u.task current = s.task current :=
  (howes.others current h.other).trans (task_current_beforeCopies h.other)

/-- How the copies may end: with nothing taken, since one of them failed; or with everything taken. -/
def Ends (flags : UInt32) (current p : TaskId) (o : Outcomes) (s : State) (x : Int × State) : Prop :=
  Released s x.2 ∧ ¬CopiesPass flags (s.task current) o ∨ CopiesPass flags (s.task current) o ∧
    x.2.processes = (beforeCopies flags current p o s).processes ∧
    (o.newHead = 0 ∧ x.1 = -ENOMEM ∨
      o.newHead ≠ 0 ∧ x.1 = ((beforeCopies flags current p o s).task p).pid.toInt)

theorem copySpace_ends (hfork : Forking current p o s) {u : State}
    (howes : Owes (beforeCopies flags current p o s) u p [.sig, .fs, .files])
    (hinherits : Inherits u current p [.sig, .fs, .files])
    (hfiles : (s.task current).ref .files = 0 ∨ flags &&& CLONE_FILES ≠ 0 ∨ o.new .files ≠ 0 ∧ o.fdError = 0)
    (hfs : flags &&& CLONE_FS ≠ 0 ∨ o.new .fs ≠ 0) (hsig : flags &&& CLONE_SIGHAND ≠ 0 ∨ o.new .sig ≠ 0) :
    Ends flags current p o s (copySpace flags current p o u) := by
  unfold copySpace
  -- The address space.
  have hcopied := copyMm_copied flags howes hinherits hfork.other (by decide) (hfork.fresh (by decide))
  have herror := copyMm_error flags current p o u
  rw [hfork.parent howes] at herror
  generalize copyMm flags current p o u = x at hcopied herror
  obtain ⟨e, v⟩ := x
  dsimp only
  split
  · rename_i he
    exact Or.inl ⟨released_cleanupSighand hfork.free hfork.user (hcopied.1 he), fun hpass => he (herror.2 hpass.mm)⟩
  rename_i he
  have hmm := herror.1 (not_not.1 he)
  obtain ⟨howes, hinherits⟩ := hcopied.2 (not_not.1 he)
  -- The namespace.
  have hsame : (v.task p).ref .nameSpace = (s.task current).ref .nameSpace := by
    rw [hinherits .nameSpace (by decide), hfork.parent howes]
  have hcopied := copyNamespace_copied flags howes hinherits hfork.other (by decide) (hfork.fresh (by decide))
    (by rw [hsame]; exact hfork.namespaceOther)
  have herror := copyNamespace_error flags p o v
  rw [hsame] at herror
  generalize copyNamespace flags p o v = x at hcopied herror
  obtain ⟨e, w⟩ := x
  dsimp only
  split
  · rename_i he
    exact Or.inl ⟨released_cleanupMm hfork.free hfork.user (hcopied.1 he), fun hpass => he (herror.2 hpass.nameSpace)⟩
  rename_i he
  obtain ⟨howes, -⟩ := hcopied.2 (not_not.1 he)
  -- The registers, and the head of the list.
  split
  · rename_i hthread
    exact Or.inl ⟨released_cleanupNamespace hfork.free hfork.user howes, fun hpass => hthread hpass.thread⟩
  rename_i hthread
  have hpass : CopiesPass flags (s.task current) o :=
    ⟨hfiles, hfs, hsig, hmm, herror.1 (not_not.1 he), not_not.1 hthread⟩
  split
  · rename_i hhead
    exact Or.inr ⟨hpass, howes.processes, Or.inl ⟨hhead, rfl⟩⟩
  · rename_i hhead
    exact Or.inr ⟨hpass, howes.processes, Or.inr ⟨hhead, congrArg Int32.toInt howes.pid⟩⟩

theorem copyProcess_ends (flags : UInt32) (hfork : Forking current p o s) :
    Outcome (fun _ => True) (Ends flags current p o s)
      (copyProcess flags current p o (beforeCopies flags current p o s)) := by
  have hne := hfork.other
  unfold copyProcess
  -- The files.
  have hcopied := copyFiles_copied flags (owes_beforeCopies flags current p o s)
    (inherits_beforeCopies flags o s hne) hne
    List.not_mem_nil (hfork.fresh (by decide))
  have herror := copyFiles_error flags current p o (beforeCopies flags current p o s)
  rw [task_current_beforeCopies hne] at herror
  generalize copyFiles flags current p o (beforeCopies flags current p o s) = x at hcopied herror
  obtain ⟨e, u⟩ := x
  dsimp only
  split
  · rename_i he
    exact .ok (Or.inl ⟨released_cleanup hfork.free hfork.user (hcopied.1 he), fun hpass => he (herror.2 hpass.files)⟩)
  rename_i he
  have hfiles := herror.1 (not_not.1 he)
  obtain ⟨howes, hinherits⟩ := hcopied.2 (not_not.1 he)
  -- The file system.
  have hcopied := shareOrCopy_copied (decide (flags &&& CLONE_FS ≠ 0)) howes hinherits hne (k := .fs) (by decide)
    (by decide) (hfork.fresh (by decide))
  refine (hcopied.and_ok fun x hx => shareOrCopy_error hx).bind ?_
  rintro ⟨e, v⟩ ⟨hcopied, herror⟩
  rw [decide_eq_true_iff] at herror
  dsimp only
  split
  · rename_i he
    exact .ok (Or.inl ⟨released_cleanupFiles hfork.free hfork.user (hcopied.1 he), fun hpass => he (herror.2 hpass.fs)⟩)
  rename_i he
  have hfs := herror.1 (not_not.1 he)
  obtain ⟨howes, hinherits⟩ := hcopied.2 (not_not.1 he)
  -- The signal handlers.
  have hcopied := shareOrCopy_copied (decide (flags &&& CLONE_SIGHAND ≠ 0)) howes hinherits hne (k := .sig) (by decide)
    (by decide) (hfork.fresh (by decide))
  refine (hcopied.and_ok fun x hx => shareOrCopy_error hx).bind ?_
  rintro ⟨e, w⟩ ⟨hcopied, herror⟩
  rw [decide_eq_true_iff] at herror
  dsimp only
  split
  · rename_i he
    exact .ok (Or.inl ⟨released_cleanupFs hfork.free hfork.user (hcopied.1 he), fun hpass => he (herror.2 hpass.sig)⟩)
  · rename_i he
    obtain ⟨howes, hinherits⟩ := hcopied.2 (not_not.1 he)
    exact .ok (copySpace_ends hfork howes hinherits hfiles hfs (herror.1 (not_not.1 he)))

end Fork

/-! ### Failing forks -/

/-- Every check before the `kmalloc` of the list head passes. -/
structure Passes (flags : UInt32) (current : TaskId) (o : Outcomes) (s : State) : Prop where
  separate : flags &&& (CLONE_NEWNS ||| CLONE_FS) ≠ CLONE_NEWNS ||| CLONE_FS
  clonePid : flags &&& CLONE_PID = 0 ∨ (s.task current).pid = 0
  taskStruct : o.taskStruct ≠ none
  limit : (s.processes ((s.task current).ref .user)).toUInt32 < (s.task current).rlimNproc ∨ o.sysAdmin = true ∨
    o.sysResource = true
  threads : s.nrThreads < s.maxThreads
  pid : getPid flags current o s ≠ 0 ∨ (s.task current).pid = 0
  copies : CopiesPass flags (s.task current) o

section Failing

variable {s t : State} {current p : TaskId} {o : Outcomes} {flags : UInt32} {r : Int}

theorem getPid_beforeCopies (hne : current ≠ p) :
    ((beforeCopies flags current p o s).task p).pid = getPid flags current o s := by
  have htask : ((beforeCopies flags current p o s).task p).pid =
      getPid flags current o (getModules p (countProcess p (withTask current p s))) := by
    unfold beforeCopies
    dsimp only [State.modTask]
    rw [Function.update_self]
  have hcurrent : (getModules p (countProcess p (withTask current p s))).task current = s.task current :=
    Function.update_of_ne hne _ _
  rw [htask, getPid, getPid, hcurrent]

theorem getPid_nonneg (henabled : Enabled current o s) (hpid : flags &&& CLONE_PID = 0 ∨ (s.task current).pid = 0) :
    0 ≤ getPid flags current o s := by
  rw [getPid]
  split
  · rename_i hflag
    rw [hpid.resolve_left hflag]
    decide
  · exact henabled.lastPid

theorem Enabled.forking (henabled : Enabled current o s) (hp : o.taskStruct = some p)
    (huser : (s.task current).ref .user ≠ 0) : Forking current p o s where
  other := by
    rintro rfl
    have hfree := henabled.taskStruct current hp
    rw [henabled.running] at hfree
    cases hfree
  free := henabled.taskStruct p hp
  user := huser
  lastPid := henabled.lastPid
  new := henabled.new
  namespaceOther hnew heq := henabled.held .nameSpace (heq ▸ hnew) (heq ▸ henabled.new .nameSpace hnew)

/-- With everything taken, the user has one process more. -/
theorem not_released_of_processes (ht : t.processes = (beforeCopies flags current p o s).processes) :
    ¬Released s t := by
  intro hreleased
  have hsame : (beforeCopies flags current p o s).processes = s.processes := ht.symm.trans hreleased.processes
  have hmore : (beforeCopies flags current p o s).processes = Function.update s.processes ((s.task current).ref .user)
      (s.processes ((s.task current).ref .user) + 1) := (countProcess_withTask current p s).2
  have hvalue := congrFun (hmore.symm.trans hsame) ((s.task current).ref .user)
  rw [Function.update_self] at hvalue
  have hone : (1 : Int32) = 0 := by grind
  exact absurd hone (by decide)

/-- How a fork may end: with nothing taken, since a check before the list head failed; or with everything taken. -/
def ForkEnds (flags : UInt32) (current : TaskId) (o : Outcomes) (s : State) (x : Int × State) : Prop :=
  Released s x.2 ∧ ¬Passes flags current o s ∨ ¬Released s x.2 ∧ Passes flags current o s ∧
    (o.newHead = 0 ∧ x.1 = -ENOMEM ∨ o.newHead ≠ 0 ∧ 0 ≤ x.1)

theorem fillTask_ends (henabled : Enabled current o s) (hp : o.taskStruct = some p)
    (hseparate : flags &&& (CLONE_NEWNS ||| CLONE_FS) ≠ CLONE_NEWNS ||| CLONE_FS)
    (hclonePid : flags &&& CLONE_PID = 0 ∨ (s.task current).pid = 0) :
    Outcome (fun _ => True) (ForkEnds flags current o s) (fillTask flags current p o (withTask current p s)) := by
  have hfree := henabled.taskStruct p hp
  unfold fillTask
  rw [task_withTask]
  dsimp only
  split
  · exact .error trivial
  rename_i huser
  have hfork := henabled.forking hp huser
  split
  · rename_i hlimit
    refine .ok (Or.inl ⟨released_free current hfree, fun hpass => ?_⟩)
    rcases hpass.limit with hbelow | hadmin | hresource
    · exact absurd hlimit.1 (UInt32.not_le.2 hbelow)
    · exact absurd (hadmin.symm.trans hlimit.2.1) (by decide)
    · exact absurd (hresource.symm.trans hlimit.2.2) (by decide)
  rename_i hlimit
  split
  · rename_i hthreads
    obtain ⟨hcount, hprocesses⟩ := countProcess_withTask current p s
    have hsame : ((countProcess p (withTask current p s)).task p).ref .user = (s.task current).ref .user :=
      congrArg (fun u => u.ref .user) (task_withTask current p s)
    exact .ok (Or.inl ⟨released_count current hfree hsame huser hcount hprocesses rfl rfl, fun hpass =>
      absurd hthreads (Int32.not_le.2 hpass.threads)⟩)
  rename_i hthreads
  change Outcome _ _ (if ((beforeCopies flags current p o s).task p).pid = 0 ∧
      ((beforeCopies flags current p o s).task current).pid ≠ 0
    then Except.ok (-EAGAIN, badForkCleanup p (beforeCopies flags current p o s))
    else copyProcess flags current p o (beforeCopies flags current p o s))
  rw [getPid_beforeCopies hfork.other, task_current_beforeCopies hfork.other]
  split
  · rename_i hpid
    refine .ok (Or.inl ⟨released_cleanup hfree huser (owes_beforeCopies flags current p o s), fun hpass => ?_⟩)
    rcases hpass.pid with hne | hzero
    · exact hne hpid.1
    · exact hpid.2 hzero
  rename_i hpid
  refine (copyProcess_ends flags hfork).imp (fun _ h => h) fun x hx => ?_
  rcases hx with ⟨hreleased, hnot⟩ | ⟨hcopies, hprocesses, hend⟩
  · exact Or.inl ⟨hreleased, fun hpass => hnot hpass.copies⟩
  refine Or.inr ⟨not_released_of_processes hprocesses, ⟨hseparate, hclonePid, fun hnone => ?_, ?_,
    Int32.not_le.1 hthreads, ?_, hcopies⟩, ?_⟩
  · rw [hp] at hnone
    cases hnone
  · by_contra hover
    rw [not_or, not_or] at hover
    exact hlimit ⟨UInt32.not_lt.1 hover.1, eq_false_of_ne_true hover.2.1, eq_false_of_ne_true hover.2.2⟩
  · by_contra hbad
    rw [not_or, not_not] at hbad
    exact hpid hbad
  · rw [getPid_beforeCopies hfork.other] at hend
    refine hend.imp (fun h => h) fun ⟨hhead, hret⟩ => ⟨hhead, ?_⟩
    rw [hret]
    exact Int32.le_iff_toInt_le.1 (getPid_nonneg henabled hclonePid)

theorem doFork_ends (flags : UInt32) (henabled : Enabled current o s) :
    Outcome (fun _ => True) (ForkEnds flags current o s) (doFork flags current o s) := by
  have hsame : Released s s := ⟨rfl, rfl, rfl, rfl⟩
  unfold doFork
  split
  · rename_i hboth
    exact .ok (Or.inl ⟨hsame, fun hpass => hpass.separate hboth⟩)
  rename_i hseparate
  split
  · rename_i hpid
    refine .ok (Or.inl ⟨hsame, fun hpass => ?_⟩)
    rcases hpass.clonePid with hflag | hzero
    · exact hpid.1 hflag
    · exact hpid.2 hzero
  rename_i hpid
  have hclonePid : flags &&& CLONE_PID = 0 ∨ (s.task current).pid = 0 := by
    by_contra hbad
    rw [not_or] at hbad
    exact hpid hbad
  cases hp : o.taskStruct with
  | none => exact .ok (Or.inl ⟨hsame, fun hpass => hpass.taskStruct hp⟩)
  | some p => exact fillTask_ends henabled hp hseparate hclonePid

end Failing

/-- A fork that returns a negative value has given back all that it took, unless every check before the `kmalloc`
of the list head has passed and that `kmalloc` fails. -/
theorem failed_fork_released_iff {flags : UInt32} {current : TaskId} {o : Outcomes} {s t : State} {r : Int}
    (henabled : Enabled current o s) (h : doFork flags current o s = .ok (r, t)) :
    (r < 0 → Released s t) ↔ ¬(Passes flags current o s ∧ o.newHead = 0) := by
  rcases (doFork_ends flags henabled).of_ok h with ⟨hreleased, hnot⟩ |
    ⟨hkept, hpass, ⟨hhead, hret⟩ | ⟨hhead, hret⟩⟩
  · exact iff_of_true (fun _ => hreleased) fun hboth => hnot hboth.1
  · have hneg : r < 0 := by
      rw [show r = -ENOMEM from hret]
      decide
    exact iff_of_false (fun himp => hkept (himp hneg)) (not_not.2 ⟨hpass, hhead⟩)
  · exact iff_of_true (fun hneg => absurd hret (Int.not_le.2 hneg)) fun hboth => hhead hboth.2

/-- `init`, alone, with structures of every kind. -/
def boot : State where
  count _ r := if r = 1 then 1 else 0
  processes _ := 1
  useCount _ := 1
  task _ := ⟨1, 100, 3, 4, fun _ => 1⟩
  inUse p := p = 1
  nrThreads := 1
  maxThreads := 50

/-- All goes well but for what follows. -/
def smooth : Outcomes where
  taskStruct := some 2
  sysAdmin := false
  sysResource := false
  lastPid := 2
  new _ := 2
  fdError := 0
  pgd := true
  newContext := 0
  dupMmap := 0
  copyThread := 0
  newHead := 9

theorem boot_enabled {o : Outcomes} (htask : o.taskStruct = some 2) (hpid : o.lastPid = 2)
    (hnew : ∀ k, o.new k = 2 ∨ o.new k = 0) : Enabled 1 o boot where
  running := rfl
  held k _ := by cases k <;> decide
  taskStruct p hp := by
    rw [htask] at hp
    cases hp
    rfl
  lastPid := by
    rw [hpid]
    decide
  new k hne := by
    rw [(hnew k).resolve_right hne]
    rfl

/-- There is no memory for the address space; files, file system and signal handlers have been copied. -/
def noSpace : Outcomes := { smooth with new := fun k => if k = .mm then 0 else 2 }

theorem failed_fork_released_iff_noSpace : Enabled 1 noSpace boot ∧
    ∃ t, doFork 0 1 noSpace boot = .ok (-ENOMEM, t) ∧ Released boot t := by
  have henabled : Enabled 1 noSpace boot := boot_enabled rfl rfl fun k => by cases k <;> decide
  have hfork : ∃ t, doFork 0 1 noSpace boot = .ok (-ENOMEM, t) := ⟨_, rfl⟩
  obtain ⟨t, ht⟩ := hfork
  have hfail : ¬(Passes 0 1 noSpace boot ∧ noSpace.newHead = 0) := fun hboth => absurd hboth.2 (by decide)
  exact ⟨henabled, t, ht, (failed_fork_released_iff henabled ht).2 hfail (by decide)⟩

/-- There is no memory for the list head. -/
def noHead : Outcomes := { smooth with newHead := 0 }

/-- The user has a process more, the task structure stays, and so do the references, here to structures that are
shared. -/
theorem noHead_not_released : Enabled 1 noHead boot ∧
    ∃ t, doFork (CLONE_VM ||| CLONE_FS ||| CLONE_FILES ||| CLONE_SIGHAND) 1 noHead boot = .ok (-ENOMEM, t) ∧
      t.processes 1 = 2 ∧ t.count .user 1 = 2 ∧ t.count .files 1 = 2 ∧ t.count .fs 1 = 2 ∧ t.count .sig 1 = 2 ∧
      t.count .mm 1 = 2 ∧ t.count .nameSpace 1 = 2 ∧ t.useCount 3 = 2 ∧ t.inUse 2 = true ∧ ¬Released boot t := by
  have hfork : ∃ t, doFork (CLONE_VM ||| CLONE_FS ||| CLONE_FILES ||| CLONE_SIGHAND) 1 noHead boot = .ok (-ENOMEM, t) ∧
      t.processes 1 = 2 ∧ t.count .user 1 = 2 ∧ t.count .files 1 = 2 ∧ t.count .fs 1 = 2 ∧ t.count .sig 1 = 2 ∧
      t.count .mm 1 = 2 ∧ t.count .nameSpace 1 = 2 ∧ t.useCount 3 = 2 ∧ t.inUse 2 = true :=
    ⟨_, rfl, by decide +kernel, by decide +kernel, by decide +kernel, by decide +kernel, by decide +kernel,
      by decide +kernel, by decide +kernel, by decide +kernel, by decide +kernel⟩
  obtain ⟨t, ht, hprocesses, huser, hfiles, hfs, hsig, hmm, hnamespace, huse, hinUse⟩ := hfork
  refine ⟨boot_enabled rfl rfl fun k => Or.inl rfl, t, ht, hprocesses, huser, hfiles, hfs, hsig, hmm, hnamespace, huse,
    hinUse, fun hreleased => ?_⟩
  rw [hreleased.inUse] at hinUse
  exact absurd hinUse (by decide)

end MagicKernel.Fork
