import MagicKernel.LocatedLists
import MagicKernel.SchedEffects

/-! The representation invariant of the run queue. A task is placed in the queue of its own priority in
the array it points to; `dequeue_task` and `enqueue_task` move it there and back, and everything else
writes a priority only while the task is off the queue. The exception is `exit_from_magic`, which with
`magic_sleep_flag` set writes the priority of a process that a wake-up has already queued, and without
it the priority of `current`, whatever process the period is of. -/

namespace MagicKernel.Sched

open FaultMachine LocatedLists

/-! ### Priority arrays -/

namespace PrioArray

/-- The bitmap marks the non-empty queues, and the counter counts what is queued. -/
structure Accurate (A : PrioArray) : Prop where
  bitmap : ∀ k, k < maxPrio → (A.bitmap k = true ↔ A.queue k ≠ [])
  nrActive : A.nrActive = ∑ k ∈ Finset.range maxPrio, ((A.queue k).length : Int)

/-- One queue is replaced, its bit and the counter with it. -/
theorem Accurate.replace {A B : PrioArray} (h : A.Accurate) {k : Nat} {l : List TaskId} {b : Bool}
    (hk : k < maxPrio) (hqueue : B.queue = Function.update A.queue k l)
    (hbitmap : B.bitmap = Function.update A.bitmap k b) (hbit : b = true ↔ l ≠ [])
    (hactive : B.nrActive = A.nrActive + (l.length - (A.queue k).length)) : B.Accurate where
  bitmap j hj := by
    rw [hqueue, hbitmap]
    by_cases hjk : j = k
    · subst hjk
      rw [Function.update_self, Function.update_self]
      exact hbit
    · rw [Function.update_of_ne hjk, Function.update_of_ne hjk]
      exact h.bitmap j hj
  nrActive := by
    rw [hactive, hqueue, sum_length_update A.queue (Finset.mem_range.2 hk) l, h.nrActive]

theorem Accurate.insert {A : PrioArray} (h : A.Accurate) {p : TaskId} {k : Nat} (hk : k < maxPrio) :
    (A.insert p k).Accurate := by
  refine h.replace hk rfl rfl (iff_of_true rfl (by simp)) ?_
  simp only [PrioArray.insert, List.length_append, List.length_singleton]
  omega

end PrioArray

/-! ### Places -/

/-- The array and the queue a task belongs in. -/
def Task.place (t : Task) : Option (ArrayId × Nat) := t.array.map fun a => (a, t.prio)

def State.place (s : State) (p : TaskId) : Option (ArrayId × Nat) := (s.task p).place

/-- All queues of the run queue. -/
def State.queues (s : State) (i : ArrayId × Nat) : List TaskId := (s.arrays i.1).queue i.2

/-- The queues hold the tasks at the places `loc` gives them, with accurate arrays, and `nr_running`
exceeds the two counters by `d`. -/
structure Located (loc : TaskId → Option (ArrayId × Nat)) (d : Int) (s : State) : Prop where
  represents : Represents loc s.queues
  prio_lt : ∀ p a k, loc p = some (a, k) → k < maxPrio
  accurate : ∀ a, (s.arrays a).Accurate
  nrRunning : s.nrRunning = (s.arrays .zero).nrActive + (s.arrays .one).nrActive + d

theorem place_eq_some {t : Task} {a : ArrayId} {k : Nat} :
    t.place = some (a, k) ↔ t.array = some a ∧ t.prio = k := by
  rw [Task.place]
  cases t.array with
  | none => simp
  | some b => simp

theorem queueInv_iff {s : State} : QueueInv s ↔ Located s.place 0 s := by
  constructor
  · intro h
    refine ⟨fun ⟨a, k⟩ p => ?_, fun p a k hp => ?_, fun a => ⟨h.bitmap a, h.nrActive a⟩, ?_⟩
    · rw [State.queues, h.linked_once a k p]
      simp only [State.place, place_eq_some]
    · obtain ⟨harray, rfl⟩ := place_eq_some.1 hp
      refine h.prio_lt p ?_
      rw [harray]
      exact Option.some_ne_none a
    · rw [h.nrRunning, Int.add_zero]
  · intro h
    refine ⟨fun a k p => ?_, fun p hp => ?_, fun a => (h.accurate a).bitmap,
      fun a => (h.accurate a).nrActive, ?_⟩
    · have hcount := h.represents (a, k) p
      simp only [State.place, place_eq_some] at hcount
      exact hcount
    · obtain ⟨a, harray⟩ := Option.ne_none_iff_exists'.1 hp
      exact h.prio_lt p a _ (place_eq_some.2 ⟨harray, rfl⟩)
    · rw [h.nrRunning, Int.add_zero]

section

variable {s s' : State} {p : TaskId} {loc loc' : TaskId → Option (ArrayId × Nat)} {d : Int}

theorem Located.congr (h : Located loc d s) (harrays : s'.arrays = s.arrays)
    (hrunning : s'.nrRunning = s.nrRunning) (hloc : ∀ p, loc' p = loc p) : Located loc' d s' := by
  obtain rfl : loc' = loc := funext hloc
  have hqueues : s'.queues = s.queues := by
    funext i
    rw [State.queues, State.queues, harrays]
  refine ⟨hqueues ▸ h.represents, h.prio_lt, fun a => ?_, ?_⟩
  · rw [harrays]
    exact h.accurate a
  · rw [harrays, hrunning]
    exact h.nrRunning

theorem queues_setArray {a : ArrayId} {A : PrioArray} {k : Nat} {l : List TaskId}
    (hqueue : A.queue = Function.update (s.arrays a).queue k l) :
    (s.setArray a A).queues = Function.update s.queues (a, k) l := by
  funext ⟨b, j⟩
  simp only [State.queues, State.setArray_arrays]
  by_cases hb : b = a
  · subst hb
    rw [Function.update_self, hqueue]
    by_cases hj : j = k
    · subst hj
      rw [Function.update_self, Function.update_self]
    · rw [Function.update_of_ne hj, Function.update_of_ne fun h => hj (Prod.mk.inj h).2]
      rfl
  · rw [Function.update_of_ne hb, Function.update_of_ne fun h => hb (Prod.mk.inj h).1]
    rfl

/-- One queue of one array is replaced. -/
theorem Located.setArray (h : Located loc d s) {a : ArrayId} {A : PrioArray} {k : Nat}
    {l : List TaskId} {c : Int} (hqueue : A.queue = Function.update (s.arrays a).queue k l)
    (hrep : Represents loc' (Function.update s.queues (a, k) l))
    (hlt : ∀ p a k, loc' p = some (a, k) → k < maxPrio) (hacc : A.Accurate)
    (hactive : A.nrActive = (s.arrays a).nrActive + c) : Located loc' (d - c) (s.setArray a A) := by
  refine ⟨?_, hlt, fun b => ?_, ?_⟩
  · rw [queues_setArray hqueue]
    exact hrep
  · rw [State.setArray_arrays]
    by_cases hb : b = a
    · subst hb
      rw [Function.update_self]
      exact hacc
    · rw [Function.update_of_ne hb]
      exact h.accurate b
  · have hrunning := h.nrRunning
    rw [State.setArray_arrays, State.setArray_nrRunning]
    cases a with
    | zero =>
        rw [Function.update_self, Function.update_of_ne (by decide)]
        omega
    | one =>
        rw [Function.update_self, Function.update_of_ne (by decide)]
        omega

theorem prio_lt_update {x : Option (ArrayId × Nat)} (h : Located loc d s)
    (hx : ∀ a k, x = some (a, k) → k < maxPrio) (q : TaskId) (a : ArrayId) (k : Nat)
    (hq : Function.update loc p x q = some (a, k)) : k < maxPrio := by
  by_cases hqp : q = p
  · subst hqp
    rw [Function.update_self] at hq
    exact hx a k hq
  · rw [Function.update_of_ne hqp] at hq
    exact h.prio_lt q a k hq

/-- `list_del` changes only the queue the task is placed in. -/
theorem Located.listDel_queue (h : Located loc d s) {a : ArrayId} {k : Nat} (hp : loc p = some (a, k)) :
    ((s.arrays a).listDel p).queue =
      Function.update (s.arrays a).queue k (((s.arrays a).queue k).filter (· ≠ p)) := by
  have hfamily := h.represents.filter_eq_update hp
  funext j
  have hj := congrFun hfamily (a, j)
  simp only [State.queues] at hj
  by_cases hjk : j = k
  · subst hjk
    rw [Function.update_self]
    rfl
  · rw [Function.update_of_ne fun heq => hjk (Prod.mk.inj heq).2] at hj
    rw [Function.update_of_ne hjk]
    exact hj

/-- The bit of the queue a task is placed in is set. -/
theorem Located.bitmap_eq (h : Located loc d s) {a : ArrayId} {k : Nat} (hp : loc p = some (a, k)) :
    (s.arrays a).bitmap k = true := by
  refine ((h.accurate a).bitmap k (h.prio_lt p a k hp)).2 ?_
  exact List.ne_nil_of_mem (h.represents.mem.2 hp)

theorem Located.remove_accurate (h : Located loc d s) {a : ArrayId} {k : Nat}
    (hp : loc p = some (a, k)) : ((s.arrays a).remove p k).Accurate := by
  have hk := h.prio_lt p a k hp
  have hqueue := h.listDel_queue hp
  have hlength : ((((s.arrays a).queue k).filter (· ≠ p)).length : Int) =
      ((s.arrays a).queue k).length - 1 := h.represents.length_filter hp
  have hself : ((s.arrays a).listDel p).queue k = ((s.arrays a).queue k).filter (· ≠ p) := rfl
  rw [PrioArray.remove]
  dsimp only
  split
  · rename_i hempty
    rw [hself, List.isEmpty_iff] at hempty
    refine (h.accurate a).replace hk hqueue (b := false) rfl ?_ ?_
    · rw [hempty]
      simp
    · rw [hlength]
      show (s.arrays a).nrActive - 1 = _
      omega
  · rename_i hempty
    rw [hself, List.isEmpty_iff] at hempty
    refine (h.accurate a).replace hk hqueue (b := true) ?_ (iff_of_true rfl hempty) ?_
    · show (s.arrays a).bitmap = _
      rw [← h.bitmap_eq hp, Function.update_eq_self]
    · rw [hlength]
      show (s.arrays a).nrActive - 1 = _
      omega

theorem remove_queue (A : PrioArray) (p : TaskId) (k : Nat) : (A.remove p k).queue = (A.listDel p).queue := by
  rw [PrioArray.remove]
  dsimp only
  split <;> rfl

theorem remove_nrActive (A : PrioArray) (p : TaskId) (k : Nat) :
    (A.remove p k).nrActive = A.nrActive + (-1) := by
  rw [PrioArray.remove]
  dsimp only
  split <;> rfl

/-- A task leaves the queue it is placed in. -/
theorem Located.remove (h : Located loc d s) {a : ArrayId} {k : Nat} (hp : loc p = some (a, k)) :
    Located (Function.update loc p none) (d + 1) (s.setArray a ((s.arrays a).remove p k)) := by
  have hqueue := (remove_queue (s.arrays a) p k).trans (h.listDel_queue hp)
  have hrep := h.represents.remove p
  rw [h.represents.filter_eq_update hp] at hrep
  refine h.setArray hqueue hrep (prio_lt_update h fun a k hx => ?_) (h.remove_accurate hp)
    (remove_nrActive _ _ _)
  cases hx

/-- `dequeue_task` of a task from its place. -/
theorem Located.dequeueTask (h : Located loc d s) {array : Option ArrayId}
    (hp : loc p = array.map fun a => (a, (s.task p).prio))
    (hstep : dequeueTask p array s = .ok s') : Located (Function.update loc p none) (d + 1) s' := by
  obtain ⟨a, rfl, -, -, rfl⟩ := dequeueTask_eq_ok.1 hstep
  exact h.remove hp

/-- `enqueue_task` of a task that is linked nowhere. -/
theorem Located.enqueueTask (h : Located loc d s) (hp : loc p = none) {array : Option ArrayId}
    (hstep : enqueueTask p array s = .ok s') :
    Located (Function.update loc p (array.map fun a => (a, (s.task p).prio))) (d - 1) s' := by
  obtain ⟨a, rfl, hlt, rfl⟩ := enqueueTask_eq_ok.1 hstep
  have hlocated : Located (Function.update loc p (some (a, (s.task p).prio))) (d - 1)
      (s.setArray a ((s.arrays a).insert p (s.task p).prio)) := by
    refine h.setArray (l := (s.arrays a).queue (s.task p).prio ++ [p]) rfl ?_ ?_
      ((h.accurate a).insert hlt) rfl
    · exact h.represents.insert hp (List.perm_append_singleton p _)
    · refine prio_lt_update h fun b k hx => ?_
      cases hx
      exact hlt
  exact hlocated.congr rfl rfl fun _ => rfl

theorem place_of_update {T : TaskId → Task} {t : Task} (htask : s'.task = Function.update T p t)
    (hT : ∀ q, q ≠ p → (T q).place = s.place q) (q : TaskId) :
    s'.place q = Function.update s.place p t.place q := by
  rw [State.place, htask]
  by_cases hq : q = p
  · subst hq
    rw [Function.update_self, Function.update_self]
  · rw [Function.update_of_ne hq, Function.update_of_ne hq]
    exact hT q hq

theorem Frame.place {t : Task} (h : Frame p t s s') (q : TaskId) :
    s'.place q = Function.update s.place p t.place q :=
  place_of_update h.task (fun _ _ => rfl) q

theorem place_of_kept {t t' : Task} (harray : t'.array = t.array) (hprio : t'.prio = t.prio) :
    t'.place = t.place := by rw [Task.place, Task.place, harray, hprio]

theorem Located.modTask (h : Located s.place d s) {f : Task → Task}
    (hf : (f (s.task p)).place = (s.task p).place) :
    Located (s.modTask p f).place d (s.modTask p f) := by
  refine h.congr rfl rfl fun q => ?_
  rw [(frame_modTask p f s).place q, hf]
  exact congrFun (Function.update_eq_self p s.place) q

theorem Located.activateTask (h : Located s.place d s) (hp : (s.task p).array = none)
    (hstep : activateTask p s = .ok s') : Located s'.place d s' := by
  have hplace := (frame_activateTask hstep).place
  have hnone : s.place p = none := by
    rw [State.place, Task.place, hp]
    rfl
  obtain ⟨s₁, h₁, hstep⟩ := bind_eq_ok.1 hstep
  cases hstep
  have hbonus : (wakeBonus s.jiffies (s.task p)).array = none := by rw [wakeBonus_array, hp]
  have h₀ : Located s.place d (s.modTask p (wakeBonus s.jiffies)) := h.congr rfl rfl fun _ => rfl
  have hlocated := h₀.enqueueTask hnone h₁
  refine ⟨?_, fun q a k hq => ?_, hlocated.accurate, ?_⟩
  · rw [funext hplace]
    have hrep := hlocated.represents
    rw [State.modTask_task, Function.update_self] at hrep
    exact hrep
  · refine hlocated.prio_lt q a k ?_
    rw [State.modTask_task, Function.update_self, ← hq, hplace q]
    rfl
  · have hrunning := hlocated.nrRunning
    show s₁.nrRunning + 1 = (s₁.arrays .zero).nrActive + (s₁.arrays .one).nrActive + d
    omega

theorem Located.deactivateTask (h : Located s.place d s) (hstep : deactivateTask p s = .ok s') :
    Located s'.place d s' := by
  have hplace := (frame_deactivateTask hstep).place
  obtain ⟨s₁, h₁, hstep⟩ := bind_eq_ok.1 hstep
  cases hstep
  generalize hs₀ : (if (s.task p).state = .uninterruptible then
    { s with nrRunning := s.nrRunning - 1, nrUninterruptible := s.nrUninterruptible + 1 }
    else { s with nrRunning := s.nrRunning - 1 }) = s₀ at h₁
  have htask : s₀.task = s.task ∧ s₀.arrays = s.arrays ∧ s₀.nrRunning = s.nrRunning - 1 := by
    rw [← hs₀]
    split <;> exact ⟨rfl, rfl, rfl⟩
  have h₀ : Located s.place (d - 1) s₀ := by
    refine ⟨?_, h.prio_lt, fun a => ?_, ?_⟩
    · have hqueues : s₀.queues = s.queues := by
        funext i
        rw [State.queues, State.queues, htask.2.1]
      rw [hqueues]
      exact h.represents
    · rw [htask.2.1]
      exact h.accurate a
    · have hrunning := h.nrRunning
      rw [htask.2.2, htask.2.1]
      omega
  have hlocated := h₀.dequeueTask (by rw [htask.1]; rfl) h₁
  rw [Int.sub_add_cancel] at hlocated
  exact hlocated.congr rfl rfl hplace

/-- A task that is taken off its queue and put back with its array and priority of the time. -/
theorem Located.requeue (h : Located s.place d s) {array : Option ArrayId} {k : State → State}
    (hp : s.place p = array.map fun a => (a, (s.task p).prio))
    (hk : ∀ s₁, (k s₁).arrays = s₁.arrays ∧ (k s₁).nrRunning = s₁.nrRunning) {g : State → Option ArrayId}
    (hstep : (Sched.dequeueTask p array s >>= fun s₁ => Sched.enqueueTask p (g s₁) (k s₁)) = .ok s')
    (hplace : ∀ q, q ≠ p → s'.place q = s.place q) : Located s'.place d s' := by
  obtain ⟨s₁, h₁, h₂⟩ := bind_eq_ok.1 hstep
  have hlocated₁ : Located (Function.update s.place p none) (d + 1) (k s₁) :=
    (h.dequeueTask hp h₁).congr (hk s₁).1 (hk s₁).2 fun _ => rfl
  have hlocated₂ := hlocated₁.enqueueTask (Function.update_self ..) h₂
  rw [Int.add_sub_cancel] at hlocated₂
  have hself := (frame_enqueueTask h₂).task_self
  refine hlocated₂.congr rfl rfl fun q => ?_
  by_cases hq : q = p
  · subst hq
    rw [Function.update_self, State.place, hself]
    rfl
  · rw [Function.update_of_ne hq, Function.update_of_ne hq]
    exact hplace q hq

theorem Located.startMagic (h : Located s.place d s) (hstep : startMagic s = .ok s') :
    Located s'.place d s' := by
  obtain ⟨-, htask, -⟩ := startMagic_spec hstep
  unfold Sched.startMagic at hstep
  dsimp only at hstep
  generalize hs₁ : State.modTask _ s.curr _ = s₁ at hstep
  have hplace₁ : ∀ q, s₁.place q = s.place q := by
    intro q
    rw [← hs₁, (frame_modTask _ _ _).place q]
    exact congrFun (Function.update_eq_self s.curr s.place) q
  have hlocated₁ : Located s₁.place d s₁ :=
    h.congr (by rw [← hs₁]; rfl) (by rw [← hs₁]; rfl) hplace₁
  rw [← bind_assoc] at hstep
  obtain ⟨s₂, h₂, hstep⟩ := bind_eq_ok.1 hstep
  cases hstep
  have hlocated₂ : Located s₂.place d s₂ := by
    refine hlocated₁.requeue (k := fun s₁ => s₁.modTask s.curr fun t => { t with prio := 50 })
      rfl (fun _ => ⟨rfl, rfl⟩) h₂ fun q hq => ?_
    have hq' := congrFun htask q
    rw [Function.update_of_ne hq] at hq'
    have hq₂ : s₂.task q = s.task q := by
      rw [← hq']
      exact (Function.update_of_ne hq _ _).symm
    rw [hplace₁ q, State.place, hq₂]
    rfl
  have hlocated₃ := hlocated₂.modTask (p := s.curr)
    (f := fun t => { t with timeSlice := t.magicTime }) rfl
  exact hlocated₃.congr rfl rfl fun _ => rfl

/-- The period of `m` ends by writing the priority of a task that stays where it is queued. -/
def StaleDemotion (s : State) (m : TaskId) : Prop :=
  (s.task (s.demoted m)).array ≠ none ∧ (s.magicSleepFlag = true ∨ s.curr ≠ m)

theorem place_eq_none {t : Task} (h : t.array = none) : t.place = none := by
  rw [Task.place, h]
  rfl

theorem Located.lowerPrio {m : TaskId} (h : Located s.place d s) (hstale : ¬StaleDemotion s m)
    (hstep : lowerPrio m s = .ok s') : Located s'.place d s' := by
  have hspec := (lowerPrio_spec hstep).1
  unfold Sched.lowerPrio at hstep
  split at hstep
  · rename_i hflag
    refine h.requeue (k := fun s₁ => s₁.modTask s₁.curr fun t => { t with prio := 130 })
      (g := fun s₁ => ((s₁.modTask s₁.curr fun t => { t with prio := 130 }).task m).array)
      rfl (fun s₁ => ⟨rfl, rfl⟩) hstep fun q hq => ?_
    have hdemoted : s.demoted m = s.curr := by
      rw [State.demoted, hflag]
      rfl
    rw [hdemoted] at hspec
    rw [State.place, hspec]
    by_cases hqc : q = s.curr
    · subst hqc
      have hnone : (s.task s.curr).array = none := by
        by_contra hne
        refine hstale ⟨?_, Or.inr hq⟩
        rw [hdemoted]
        exact hne
      rw [Function.update_self, State.place, place_eq_none hnone]
      exact place_eq_none hnone
    · rw [Function.update_of_ne hqc]
      rfl
  · rename_i hflag
    have hflag' : s.magicSleepFlag = true := Bool.not_eq_false _ ▸ hflag
    cases hstep
    have hnone : (s.task m).array = none := by
      by_contra hne
      refine hstale ⟨?_, Or.inl hflag'⟩
      rw [State.demoted, if_pos hflag']
      exact hne
    refine h.modTask ?_
    rw [place_eq_none hnone]
    exact place_eq_none hnone

theorem Located.exitFromMagic (h : Located s.place d s)
    (hstale : ∀ m, s.magicProcess = some m → ¬StaleDemotion s m)
    (hstep : exitFromMagic s = .ok s') : Located s'.place d s' := by
  unfold Sched.exitFromMagic at hstep
  split at hstep
  · cases hstep
  · rename_i m hm
    obtain ⟨s₁, h₁, hstep⟩ := bind_eq_ok.1 hstep
    cases hstep
    have h₁' := h.lowerPrio (hstale m hm) h₁
    have h₂ : Located
        { s₁ with idleFromMagic := false, magicSleepFlag := false, magicDuration := 0 }.place d
        { s₁ with idleFromMagic := false, magicSleepFlag := false, magicDuration := 0 } :=
      h₁'.congr rfl rfl fun _ => rfl
    have h₃ := h₂.modTask (p := m) (f := fun t =>
      { t with startedMagic := false, magicTime := 0, timeSlice := 0, magicCallTime := 0 }) rfl
    exact h₃.congr rfl rfl fun _ => rfl

/-! ### Ticks -/

theorem Located.expireSlice (h : Located s.place d s) (hp : (s.task p).array = some s.active)
    (hstep : expireSlice p s = .ok s') : Located s'.place d s' := by
  obtain ⟨t, hframe, -⟩ := expireSlice_spec hstep
  have hplace : ∀ q, q ≠ p → s'.place q = s.place q := by
    intro q hq
    rw [hframe.place q, Function.update_of_ne hq]
  have hat : s.place p = (some s.active).map fun a => (a, (s.task p).prio) := by
    rw [State.place, Task.place, hp]
  obtain ⟨s₁, h₁, h₂⟩ := bind_eq_ok.1 hstep
  have hlocated₁ := h.dequeueTask hat h₁
  -- The state in which the task is queued again, wherever that is.
  have hrequeue : ∀ {array : Option ArrayId} {s₂ : State}, s₂.arrays = s₁.arrays →
      s₂.nrRunning = s₁.nrRunning → Sched.enqueueTask p array s₂ = .ok s' → Located s'.place d s' := by
    intro array s₂ harrays hrunning h₂
    have hlocated₂ : Located (Function.update s.place p none) (d + 1) s₂ :=
      hlocated₁.congr harrays hrunning fun _ => rfl
    have hlocated' := hlocated₂.enqueueTask (Function.update_self ..) h₂
    rw [Int.add_sub_cancel, Function.update_idem] at hlocated'
    have hself := (frame_enqueueTask h₂).task_self
    refine hlocated'.congr rfl rfl fun q => ?_
    by_cases hq : q = p
    · subst hq
      rw [Function.update_self, State.place, hself]
      rfl
    · rw [Function.update_of_ne hq]
      exact hplace q hq
  dsimp only at h₂
  split at h₂
  · refine hrequeue ?_ ?_ h₂
    · split <;> rfl
    · split <;> rfl
  · refine hrequeue ?_ ?_ h₂
    · rfl
    · rfl

theorem Located.chargeTick (h : Located s.place d s) (hstep : chargeTick p s = .ok s') :
    Located s'.place d s' := by
  unfold Sched.chargeTick at hstep
  split at hstep
  · cases hstep
    exact h.modTask rfl
  · rename_i harray
    rw [not_not] at harray
    split at hstep
    · split at hstep
      · dsimp only at hstep
        have h₁ := h.modTask (p := p) (f := fun t => { t with timeSlice := t.timeSlice - 1 }) rfl
        split at hstep
        · have h₂ := h₁.modTask (p := p) (f := refillSlice) rfl
          have hframe : ∀ q, q ≠ p → s'.place q = s.place q := by
            intro q hq
            obtain ⟨s₁, hdeq, henq⟩ := bind_eq_ok.1 hstep
            rw [(frame_enqueueTask henq).place q, Function.update_of_ne hq,
              (frame_dequeueTask hdeq).place q, Function.update_of_ne hq,
              (frame_modTask _ _ _).place q, Function.update_of_ne hq,
              (frame_modTask _ _ _).place q, Function.update_of_ne hq]
          refine h₂.requeue (k := fun s => s) ?_ (fun _ => ⟨rfl, rfl⟩) hstep ?_
          · rw [State.place, State.modTask_task, Function.update_self, State.modTask_task,
              Function.update_self, Task.place]
            exact congrArg (Option.map _) harray
          · intro q hq
            rw [hframe q hq, (frame_modTask _ _ _).place q, Function.update_of_ne hq,
              (frame_modTask _ _ _).place q, Function.update_of_ne hq]
        · cases hstep
          exact h₁
      · cases hstep
        exact h
    · dsimp only at hstep
      have h₁ := h.modTask (p := p) (f := fun t =>
        { t with sleepAvg := if t.sleepAvg ≠ 0 then t.sleepAvg - 1 else 0 }) rfl
      have h₂ := h₁.modTask (p := p) (f := fun t => { t with timeSlice := t.timeSlice - 1 }) rfl
      split at hstep
      · refine h₂.expireSlice ?_ hstep
        rw [State.modTask_task, Function.update_self, State.modTask_task, Function.update_self]
        exact harray
      · cases hstep
        exact h₂

theorem Located.magicTimer (h : Located s.place d s)
    (hstale : ∀ m, s.magicProcess = some m → s.MAGICTIME = 1 → ¬StaleDemotion s m)
    (hstep : magicTimer s = .ok s') : Located s'.place d s' := by
  rcases magicTimer_cases hstep with ⟨-, rfl⟩ | ⟨-, rfl⟩ | ⟨htime, s₁, h₁, rfl⟩
  · exact h
  · exact h.congr rfl rfl fun _ => rfl
  · have h₀ : Located { s with MAGICTIME := s.MAGICTIME - 1 }.place d
        { s with MAGICTIME := s.MAGICTIME - 1 } := h.congr rfl rfl fun _ => rfl
    exact (h₀.exitFromMagic (fun m hm => hstale m hm htime) h₁).modTask rfl

theorem Located.schedulerTick (h : Located s.place d s)
    (hstale : ∀ m, s.magicProcess = some m → s.MAGICTIME = 1 → ¬StaleDemotion s m)
    (hstep : schedulerTick s = .ok s') : Located s'.place d s' := by
  obtain ⟨s₁, h₁, hcharge⟩ := schedulerTick_cases hstep
  have hs₁ := h.magicTimer hstale h₁
  rcases hcharge with ⟨-, rfl⟩ | ⟨-, hcharge⟩
  · exact hs₁
  · exact hs₁.chargeTick hcharge

/-! ### `schedule()` -/

theorem Located.renewMagic (h : Located s.place d s) (m : TaskId) :
    Located (renewMagic m s).place d (renewMagic m s) := by
  have hqueue : (Sched.renewMagic m s).arrays = s.arrays ∧ (Sched.renewMagic m s).nrRunning = s.nrRunning := by
    rw [Sched.renewMagic]
    split <;> exact ⟨rfl, rfl⟩
  refine h.congr hqueue.1 hqueue.2 fun q => ?_
  rw [State.place, renewMagic_task]
  rfl

theorem Located.magicSegment (h : Located s.place d s)
    (hstale : ∀ m, s.magicProcess = some m → (s.task m).state = .zombie ∨ renewedTime s m = 0 →
      ¬StaleDemotion s m)
    {f : Flow} (hstep : magicSegment s = .ok f) : Located f.state.place d f.state := by
  cases magicSegment_ok hstep with
  | idle => exact h
  | @ended m s₁ hm hend hexit =>
      rw [renewMagic_MAGICTIME, renewedTime_view] at hend
      refine (h.renewMagic m).exitFromMagic (fun m' hm' hdemotion => hstale m hm hend ?_) hexit
      rw [renewMagic_magicProcess, hm] at hm'
      cases hm'
      rw [StaleDemotion, State.demoted, renewMagic_magicSleepFlag, renewMagic_curr, renewMagic_task] at hdemotion
      exact hdemotion
  | @resume m => exact (h.renewMagic m).congr rfl rfl fun _ => rfl
  | @wait m => exact h.renewMagic m
  | @kept m => exact h.renewMagic m

theorem Located.startUnlessStarted (h : Located s.place d s)
    (hstep : startUnlessStarted s = .ok s') : Located s'.place d s' := by
  unfold Sched.startUnlessStarted at hstep
  split at hstep
  · exact h.startMagic hstep
  · cases hstep
    exact h

theorem Located.runningArm (h : Located s.place d s) {f : Flow} (hstep : runningArm s = .ok f) :
    Located f.state.place d f.state := by
  unfold Sched.runningArm at hstep
  split at hstep
  · obtain ⟨s₁, h₁, hstep⟩ := bind_eq_ok.1 hstep
    cases hstep
    exact h.startUnlessStarted h₁
  · cases hstep
    exact h

theorem Located.stateSwitch (h : Located s.place d s) {f : Flow} (hstep : stateSwitch s = .ok f) :
    Located f.state.place d f.state := by
  unfold Sched.stateSwitch at hstep
  split at hstep
  · split at hstep
    · obtain ⟨s₁, h₁, hstep⟩ := bind_eq_ok.1 hstep
      obtain ⟨s₂, h₂, hstep⟩ := bind_eq_ok.1 hstep
      cases hstep
      have hs₁ := h.startUnlessStarted h₁
      have hs₁' : Located { s₁ with idleFromMagic := true, magicSleepFlag := true }.place d
          { s₁ with idleFromMagic := true, magicSleepFlag := true } := hs₁.congr rfl rfl fun _ => rfl
      exact hs₁'.deactivateTask h₂
    · split at hstep
      · cases hstep
        exact h.modTask (p := s.curr) (f := fun t => { t with state := .running }) rfl
      · obtain ⟨s₁, h₁, hstep⟩ := bind_eq_ok.1 hstep
        exact (h.deactivateTask h₁).runningArm hstep
  · exact h.runningArm hstep
  · obtain ⟨s₁, h₁, hstep⟩ := bind_eq_ok.1 hstep
    exact (h.deactivateTask h₁).runningArm hstep

theorem Located.selectNext (h : Located s.place d s)
    (hstale : ∀ m, s.magicProcess = some m → (s.task m).state = .zombie ∨ renewedTime s m = 0 →
      ¬StaleDemotion s m)
    {n : Next} (hstep : selectNext s = .ok (n, s')) : Located s'.place d s' := by
  have hstamp : Located (stampSleep s).place d (stampSleep s) := h.modTask rfl
  obtain ⟨f, hf, hstep⟩ := bind_eq_ok.1 hstep
  have hseg := hstamp.magicSegment (fun m hm hend hd => ?_) hf
  · cases f with
    | goto n₁ s₁ =>
        cases hstep
        exact hseg
    | fall s₁ =>
        obtain ⟨g, hg, hstep⟩ := bind_eq_ok.1 hstep
        have hswitch := Located.stateSwitch (s := s₁) hseg hg
        cases g with
        | goto n₂ s₂ =>
            cases hstep
            exact hswitch
        | fall s₂ =>
            obtain ⟨htask, -, harrays, hrunning, -⟩ := pickNextTask_spec hstep
            refine Located.congr (s := s₂) hswitch harrays hrunning fun q => ?_
            rw [State.place, htask]
            rfl
  · rw [stampSleep_state, stampSleep_renewedTime] at hend
    refine hstale m hm hend ?_
    obtain ⟨hqueued, hd⟩ := hd
    refine ⟨?_, hd⟩
    rw [← queued_eq_true] at hqueued ⊢
    rw [stampSleep_view] at hqueued
    exact hqueued

theorem Located.schedule (h : Located s.place d s)
    (hstale : ∀ m, s.magicProcess = some m → (s.task m).state = .zombie ∨ renewedTime s m = 0 →
      ¬StaleDemotion s m)
    (hstep : schedule s = .ok s') : Located s'.place d s' := by
  obtain ⟨r, h₁, hstep⟩ := bind_eq_ok.1 hstep
  have hlocated := h.selectNext hstale h₁
  unfold switchTasks at hstep
  split at hstep
  · cases hstep
  · cases hstep
  · dsimp only at hstep
    split at hstep
    · cases hstep
      exact (hlocated.modTask (p := r.2.curr) (f := fun t => { t with needResched := false })
        rfl).congr rfl rfl fun _ => rfl
    · cases hstep
      exact hlocated.modTask rfl

/-! ### `sys_sched_yield` -/

/-- A task moves within its array, by hand: out of its queue and into the queue `i`. -/
theorem Located.relink (h : Located loc d s) {a : ArrayId} {k i : Nat} (hp : loc p = some (a, k))
    (hi : i < maxPrio) {B : PrioArray} {l : List TaskId}
    (hqueue : B.queue = Function.update ((s.arrays a).listDel p).queue i l)
    (hl : l.Perm (p :: ((s.arrays a).listDel p).queue i))
    (hbitmap : B.bitmap = Function.update ((s.arrays a).remove p k).bitmap i true)
    (hactive : B.nrActive = (s.arrays a).nrActive) :
    Located (Function.update loc p (some (a, i))) d (s.setArray a B) := by
  have hremoved := h.remove hp
  have harray : (s.setArray a ((s.arrays a).remove p k)).arrays a = (s.arrays a).remove p k :=
    Function.update_self ..
  rw [← remove_queue _ p k, ← harray] at hqueue hl
  rw [← harray] at hbitmap
  have hactive' : B.nrActive =
      ((s.setArray a ((s.arrays a).remove p k)).arrays a).nrActive + 1 := by
    rw [harray, remove_nrActive, hactive]
    omega
  have hlength := hl.length_eq
  have haccurate : B.Accurate := by
    refine (hremoved.accurate a).replace hi hqueue hbitmap (iff_of_true rfl ?_) ?_
    · exact List.ne_nil_of_length_pos (by rw [hlength]; exact Nat.succ_pos _)
    · rw [hactive', hlength, List.length_cons]
      omega
  have hlocated := hremoved.setArray hqueue
    (hremoved.represents.insert (i := (a, i)) (Function.update_self ..) hl)
    (prio_lt_update hremoved fun b j hx => by cases hx; exact hi) haccurate hactive'
  rw [Int.add_sub_cancel, Function.update_idem] at hlocated
  refine hlocated.congr ?_ rfl fun _ => rfl
  rw [State.setArray_arrays, State.setArray_arrays, State.setArray_arrays, Function.update_idem]

/-- The bitmap after a yield, seen from the array without the task. -/
theorem Requeued.bitmap_remove {a : ArrayId} {i : Nat} {B : PrioArray} (hrequeued : Requeued s a i B)
    (hset : (s.arrays a).bitmap (s.task s.curr).prio = true) :
    B.bitmap = Function.update ((s.arrays a).remove s.curr (s.task s.curr).prio).bitmap i true := by
  have hself : Function.update (s.arrays a).bitmap (s.task s.curr).prio true = (s.arrays a).bitmap := by
    rw [← hset, Function.update_eq_self]
  rw [PrioArray.remove]
  dsimp only
  rcases hrequeued.bitmap with ⟨rfl, hbitmap⟩ | ⟨hempty, hbitmap⟩
  · rw [hbitmap]
    split
    · rw [Function.update_idem]
      exact hself.symm
    · exact hself.symm
  · rw [hbitmap, if_pos (List.isEmpty_iff.2 hempty)]
    rfl

theorem Located.yieldRequeue (h : Located s.place d s) (hstep : yieldRequeue s = .ok s') :
    Located s'.place d s' := by
  obtain ⟨a, i, B, hrequeued, rfl⟩ := yieldRequeue_ok hstep
  obtain ⟨l, hperm, hqueue⟩ := hrequeued.queue
  have hp : s.place s.curr = some (a, (s.task s.curr).prio) := place_eq_some.2 ⟨hrequeued.array, rfl⟩
  have hlocated := h.relink hp hrequeued.lt hqueue hperm (hrequeued.bitmap_remove (h.bitmap_eq hp))
    hrequeued.nrActive
  refine hlocated.congr rfl rfl fun q => ?_
  show ((Function.update s.task s.curr { s.task s.curr with prio := i }) q).place = _
  by_cases hq : q = s.curr
  · subst hq
    rw [Function.update_self, Function.update_self]
    exact place_eq_some.2 ⟨hrequeued.array, rfl⟩
  · rw [Function.update_of_ne hq, Function.update_of_ne hq]
    rfl

/-! ### Wake-ups and forks -/

theorem Located.tryToWakeUp (h : Located s.place d s) (hstep : tryToWakeUp p s = .ok s') :
    Located s'.place d s' := by
  obtain ⟨s₁, h₁, hstep⟩ := bind_eq_ok.1 hstep
  cases hstep
  have hs₁ : Located s₁.place d s₁ := by
    unfold wakeIfOffQueue at h₁
    split at h₁
    · rename_i harray
      unfold wakeOffQueue at h₁
      generalize hs₂ : (if (s.task p).state = .uninterruptible then
        { s with nrUninterruptible := s.nrUninterruptible - 1 } else s) = s₂ at h₁
      have htask : s₂.task = s.task ∧ s₂.arrays = s.arrays ∧ s₂.nrRunning = s.nrRunning := by
        rw [← hs₂]
        split <;> exact ⟨rfl, rfl, rfl⟩
      have hlocated₂ : Located s₂.place d s₂ := by
        refine h.congr htask.2.1 htask.2.2 fun q => ?_
        rw [State.place, htask.1]
        rfl
      obtain ⟨s₃, h₃, h₁⟩ := bind_eq_ok.1 h₁
      cases h₁
      have hlocated₃ := hlocated₂.activateTask (by rw [htask.1]; exact harray) h₃
      split
      · exact hlocated₃.modTask rfl
      · exact hlocated₃
    · cases h₁
      exact h
  exact hs₁.modTask rfl

theorem Located.wakeUpForkedProcess (h : Located s.place d s) (hp : (s.task p).array = none)
    (hcurr : p ≠ s.curr) (hstep : wakeUpForkedProcess p s = .ok s') : Located s'.place d s' := by
  have h₁ : Located (s.modTask p fun t => { t with state := .running }).place d
      (s.modTask p fun t => { t with state := .running }) := h.modTask rfl
  generalize hs₁ : (s.modTask p fun t => { t with state := .running }) = s₁ at h₁
  have hstep' : Sched.activateTask p (forkPenalty p s₁) = .ok s' := by
    rw [← hs₁]
    exact hstep
  have hnone₁ : (s₁.task p).array = none := by
    rw [← hs₁, State.modTask_task, Function.update_self]
    exact hp
  have hcurr₁ : p ≠ s₁.curr := by
    rw [← hs₁]
    exact hcurr
  have hnone : ((forkPenalty p s₁).task p).array = none :=
    (congrFun (forkPenalty_loc p s₁) p).trans hnone₁
  have harrays : (forkPenalty p s₁).arrays = s₁.arrays ∧
      (forkPenalty p s₁).nrRunning = s₁.nrRunning := by
    rw [forkPenalty]
    split <;> exact ⟨rfl, rfl⟩
  obtain ⟨-, hothers, -⟩ := forkPenalty_spec hcurr₁
  refine Located.activateTask (h₁.congr harrays.1 harrays.2 fun q => ?_) hnone hstep'
  by_cases hq : q = p
  · subst hq
    rw [State.place, State.place, place_eq_none hnone, place_eq_none hnone₁]
  · exact place_of_kept (hothers q hq).array (hothers q hq).prio

theorem Located.copyProcess (h : Located s.place d s) {child : TaskId}
    (hchild : (s.task child).array = none) :
    Located (copyProcess child s).place d (copyProcess child s) := by
  refine h.congr rfl rfl fun q => ?_
  show (Function.update s.task child (copyTask (s.task s.curr)) q).place = (s.task q).place
  by_cases hq : q = child
  · subst hq
    rw [Function.update_self, place_eq_none hchild]
    exact place_eq_none rfl
  · rw [Function.update_of_ne hq]

theorem StaleDemotion.congr {m : TaskId} (h : StaleDemotion s' m) (hcurr : s'.curr = s.curr)
    (hflag : s'.magicSleepFlag = s.magicSleepFlag) (hloc : ∀ q, s'.loc q = s.loc q) :
    StaleDemotion s m := by
  obtain ⟨hqueued, hwrong⟩ := h
  have hdemoted : s'.demoted m = s.demoted m := by
    rw [State.demoted, State.demoted, hflag, hcurr]
  refine ⟨?_, by rw [← hflag, ← hcurr]; exact hwrong⟩
  intro hnone
  have hnone' : s.loc (s.demoted m) = none := hnone
  rw [← hloc, ← hdemoted] at hnone'
  exact hqueued hnone'

/-- The event ends no period by writing the priority of a task where it is queued. -/
def RequeuesDemoted (s : State) (e : Event) : Prop :=
  ¬∃ m, s.magicProcess = some m ∧ EndsPeriod s m e ∧ StaleDemotion s m

theorem Located.doFork (h : Located s.place d s) (hsound : Sound s) {child : TaskId} {vfork : Bool}
    (hchild : s.allocated child = false) (hrequeue : RequeuesDemoted s (.fork child vfork))
    (hstep : doFork child vfork s = .ok s') : Located s'.place d s' := by
  have hfree : (s.task child).array = none := freeUnlinked_of_base hsound.base child hchild
  obtain ⟨hts, hne, s₁, s₂, h₁, hcurr₁, hwake, -, h'⟩ := hsound.doFork_cases hchild hstep
  have hcopy := h.copyProcess hfree
  have hshare : Located (shareTimeSlice child (Sched.copyProcess child s)).place d
      (shareTimeSlice child (Sched.copyProcess child s)) := by
    have hslice := hcopy.modTask (p := child) (f := fun t =>
      { t with
        timeSlice := (((Sched.copyProcess child s).task s.curr).timeSlice + 1) >>> 1
        firstTimeSlice := true
        sleepTimestamp := s.jiffies }) rfl
    exact hslice.modTask (p := s.curr) (f := fun t =>
      { t with timeSlice := ((Sched.copyProcess child s).task s.curr).timeSlice >>> 1 }) rfl
  have hloc : (shareTimeSlice child (Sched.copyProcess child s)).loc = s.loc :=
    (shareTimeSlice_loc child _).trans (copyProcess_loc hfree)
  have hs₁ : Located s₁.place d s₁ ∧ (s₁.task child).array = none := by
    rcases tickIfSpent_cases h₁ with ⟨-, rfl⟩ | ⟨hzero, htick⟩
    · exact ⟨hshare, (congrFun hloc child).trans hfree⟩
    · have hloc' := loc_modTask (shareTimeSlice child (Sched.copyProcess child s)) s.curr
        (fun t => { t with timeSlice := 1 }) fun _ => rfl
      refine ⟨?_, ?_⟩
      · have hslice := hshare.modTask (p := s.curr) (f := fun t => { t with timeSlice := 1 }) rfl
        refine hslice.schedulerTick (fun m hm htime hd => ?_) htick
        have hspent : (s.task s.curr).timeSlice >>> 1 = 0 := (forkParent_timeSlice hne).symm.trans hzero
        refine hrequeue ⟨m, hm, ⟨htime, (shiftRight_one_eq_zero hts).1 hspent⟩, hd.congr rfl rfl ?_⟩
        intro q
        rw [hloc', hloc]
      · refine (schedulerTick_loc htick child).2 ?_
        exact (congrFun hloc' child).trans ((congrFun hloc child).trans hfree)
  have hs₂ := hs₁.1.wakeUpForkedProcess hs₁.2 (by rw [hcurr₁]; exact hne) hwake
  rcases h' with rfl | rfl
  · exact hs₂
  · exact hs₂.modTask rfl

theorem Located.step (h : Located s.place d s) (hsound : Sound s) {e : Event}
    (hrequeue : RequeuesDemoted s e) (hstep : machine.Step s e s') : Located s'.place d s' := by
  obtain ⟨henabled, hstep⟩ := hstep
  cases e with
  | tick =>
      have h₀ : Located { s with jiffies := s.jiffies + 1 }.place d
          { s with jiffies := s.jiffies + 1 } := h.congr rfl rfl fun _ => rfl
      exact h₀.schedulerTick (fun m hm htime hd => hrequeue ⟨m, hm, htime, hd⟩) hstep
  | wake p => exact h.tryToWakeUp hstep
  | signal p pending =>
      cases hstep
      exact h.modTask rfl
  | setState state =>
      cases hstep
      exact h.modTask rfl
  | schedule => exact h.schedule (fun m hm hend hd => hrequeue ⟨m, hm, hend, hd⟩) hstep
  | yield =>
      obtain ⟨s₁, h₁, hstep⟩ := bind_eq_ok.1 hstep
      obtain ⟨-, k, hframe, -⟩ := yieldRequeue_spec h₁
      refine (h.yieldRequeue h₁).schedule (fun m hm hend hd => ?_) hstep
      have hstate : (s₁.task m).state = (s.task m).state :=
        congrArg (fun v : View => (v.task m).state) (yieldRequeue_view h₁)
      rw [yieldRequeue_renewedTime h₁, hstate] at hend
      refine hrequeue ⟨m, hframe.magicProcess ▸ hm, hend,
        hd.congr hframe.curr (congrArg Core.magicSleepFlag hframe.core) fun q => ?_⟩
      rw [loc_of_update hframe.task q]
      exact congrFun (Function.update_eq_self s.curr s.loc) q
  | fork child vfork => exact h.doFork hsound henabled.2 hrequeue hstep
  | release p =>
      obtain ⟨-, ts, avg, -, rfl⟩ := releaseTask_spec hstep
      have hs := h.modTask (p := s.curr) (f := fun t => { t with timeSlice := ts, sleepAvg := avg }) rfl
      exact hs.congr rfl rfl fun _ => rfl
  | getWand =>
      cases hstep
      exact h.modTask rfl
  | magicClock seconds =>
      cases hstep
      unfold sysMagicClock
      split
      · exact h.modTask rfl
      · exact h

end

/-- The run queue is represented as the code means it in every state of a run in which no period ends by
writing the priority of a task where it is queued. -/
theorem queueInv_of_requeuesDemoted {s : State}
    (h : (machine.restrict RequeuesDemoted).Reachable Initial s) : QueueInv s := by
  refine h.invariant (fun s hs => hs.queue) ?_
  intro s e s' hreach hs hstep
  obtain ⟨hrequeue, hstep⟩ := Machine.restrict_step.1 hstep
  rw [queueInv_iff] at hs ⊢
  exact hs.step (sound_of_reachable hreach.of_restrict) hrequeue hstep

section Boot

instance (s : State) (m : TaskId) : Decidable (StaleDemotion s m) :=
  inferInstanceAs (Decidable (¬(_ = none) ∧ (_ ∨ ¬_)))

instance (s : State) (e : Event) : Decidable (RequeuesDemoted s e) :=
  inferInstanceAs (Decidable (¬_))

/-- `init` has been through a whole period, with a sleep in it, and its child runs. -/
def afterSleep : State :=
  (machine.restrict RequeuesDemoted).after boot [.schedule, .fork 2 false, .getWand, .magicClock 1,
    .schedule, .setState .interruptible, .schedule, .tick, .wake 1, .schedule, .magicClock 0, .schedule]

theorem queueInv_afterSleep : afterSleep.magicProcess = none ∧ afterSleep.nrRunning = 2 ∧
    QueueInv afterSleep := by
  have hreach : (machine.restrict RequeuesDemoted).Reachable Initial afterSleep :=
    ⟨boot, _, boot_initial, Machine.run_after (by decide +kernel)⟩
  exact ⟨by decide +kernel, by decide +kernel, queueInv_of_requeuesDemoted hreach⟩

/-- `init` is woken from a sleep within its period, and the period ends at the next tick, before
`schedule()` has cleared `magic_sleep_flag`. -/
def wokenAtEnd : State :=
  machine.after boot ([.schedule, .getWand, .magicClock 1, .setState .interruptible, .schedule] ++
    List.replicate 511 .tick ++ [.wake 1, .tick])

theorem wokenAtEnd_not_queueInv : machine.Reachable Initial wokenAtEnd ∧ ¬QueueInv wokenAtEnd := by
  refine ⟨⟨boot, _, boot_initial, Machine.run_after (by decide +kernel)⟩, fun h => ?_⟩
  have hqueued : (wokenAtEnd.task 1).prio = 130 ∧ 1 ∈ (wokenAtEnd.arrays .zero).queue 50 := by decide +kernel
  obtain ⟨hprio, hmem⟩ := hqueued
  have hplace := (h.mem_queue.1 hmem).2
  rw [hprio] at hplace
  exact absurd hplace (by decide)

end Boot

end MagicKernel.Sched
