import MagicKernel.WandListing

/-! The history of secrets. Beside the state we write down, for every task, the string it has passed to
`sys_magic_get_wand` and the strings that the victims of its thefts had passed. What a task is told by
`sys_magic_list_secrets` is what was written down for it. -/

namespace MagicKernel.Wand

open FaultMachine BlockHeap

/-! ### What is written down -/

/-- A theft: whether the victim had exited, and the string that the victim had passed. -/
structure Theft where
  exited : Bool
  secret : List UInt8
  deriving DecidableEq

structure Book where
  passed : List UInt8
  thefts : List Theft

/-- The string in a user buffer. -/
def userText (src : Nat → UInt8) : List UInt8 := text ((List.range secretMaxsize).map src)

/-- The string with which a call gets a wand. -/
def passedBy (s : State) (e : Event) : Option (List UInt8) :=
  match e.call with
  | .getWand power (some r) mem junk =>
    match sysMagicGetWand e.current power (some r) mem junk s with
    | .ok (x, _) => if x = 0 then some (userText r.copy) else none
    | .error _ => none
  | _ => none

/-- The theft of `q` that a call is. -/
def takings (s : State) (e : Event) (b : TaskId → Book) (q : TaskId) : List Theft :=
  if e.current = q then (victimOf s e).toList.map fun v => ⟨(s.task v).exited, (b v).passed⟩ else []

/-- A call begins a new book for the child of a fork, and adds to the book of the caller. -/
def note (s : State) (e : Event) (b : TaskId → Book) (q : TaskId) : Book :=
  match e.call with
  | .fork child _ _ => if child = q then ⟨[], []⟩ else b q
  | _ =>
    { passed := if e.current = q then (passedBy s e).getD (b q).passed else (b q).passed
      thefts := (b q).thefts ++ takings s e b q }

theorem text_range_of_spells {src : Nat → UInt8} {w : List UInt8} {n : Nat} (h : Spells (ofUser src) w)
    (hlen : w.length < n) : text ((List.range n).map src) = w := by
  induction n generalizing src w with
  | zero => exact absurd hlen (Nat.not_lt_zero _)
  | succ n ih =>
      rw [List.range_succ_eq_map, List.map_cons, List.map_map]
      cases w with
      | nil =>
          have hzero : src 0 = 0 := Option.some.inj h
          rw [hzero, text_zero]
      | cons c w =>
          obtain ⟨hhead, hc, hrest⟩ := h
          have hhead : src 0 = c := Option.some.inj hhead
          rw [hhead, text_cons hc]
          exact congrArg (c :: ·) (ih hrest (Nat.lt_of_succ_lt_succ hlen))

/-- The user buffer holds the string `w` at every read, and its NUL is among the first `SECRET_MAXSIZE`
bytes. -/
structure SecretReads.Holds (r : SecretReads) (w : List UInt8) : Prop where
  short : w.length < secretMaxsize
  first : r.first = w.headD 0
  scan : Spells (ofUser r.scan) w
  copy : Spells (ofUser r.copy) w
  compare : Spells (ofUser r.compare) w

/-- Secrets are strings that end within `SECRET_MAXSIZE` bytes. -/
def Spelled (_ : State) (e : Event) : Prop :=
  ∀ power r mem junk, e.call = .getWand power (some r) mem junk → ∃ w, r.Holds w

theorem agreed_of_spelled {s : State} {e : Event} (h : Spelled s e) : Agreed s e := by
  intro power r mem junk he w' hw'
  obtain ⟨w, hw⟩ := h power r mem junk he
  obtain rfl : w = w' := hw.copy.unique hw'
  exact hw.compare

theorem userText_of_holds {r : SecretReads} {w : List UInt8} (h : r.Holds w) : userText r.copy = w :=
  text_range_of_spells h.copy h.short

/-! ### The book of a task -/

section Note

variable {s : State} {e : Event} {b : TaskId → Book} {q : TaskId}

theorem note_of_child {parent : TaskId} {pid : Int32} {mem : Addr} (he : e = ⟨parent, .fork q pid mem⟩) :
    note s e b q = ⟨[], []⟩ := by
  subst he
  exact if_pos rfl

/-- The book of a task that is not just born. -/
theorem note_of_ne (hq : ∀ parent pid mem, e ≠ ⟨parent, .fork q pid mem⟩) :
    (note s e b q).passed = (if e.current = q then (passedBy s e).getD (b q).passed else (b q).passed) ∧
      (note s e b q).thefts = (b q).thefts ++ takings s e b q := by
  obtain ⟨p, call⟩ := e
  cases call with
  | fork child pid mem =>
      have hne : child ≠ q := by
        rintro rfl
        exact hq p pid mem rfl
      have hnote : note s ⟨p, .fork child pid mem⟩ b q = b q := if_neg hne
      have hpassed : passedBy s ⟨p, .fork child pid mem⟩ = none := rfl
      have htakings : takings s ⟨p, .fork child pid mem⟩ b q = [] := by
        rw [takings]
        exact ite_self _
      rw [hnote, hpassed, htakings, List.append_nil]
      exact ⟨(ite_self _).symm, rfl⟩
  | getWand power secret mem junk => exact ⟨rfl, rfl⟩
  | attack pid => exact ⟨rfl, rfl⟩
  | legilimens pid mem junk => exact ⟨rfl, rfl⟩
  | listSecrets secrets size => exact ⟨rfl, rfl⟩
  | magicClock seconds jiffies => exact ⟨rfl, rfl⟩
  | exit => exact ⟨rfl, rfl⟩
  | release p' => exact ⟨rfl, rfl⟩

theorem passedBy_of_wand (hwand : (s.task e.current).holdingWand = true) : passedBy s e = none := by
  obtain ⟨p, call⟩ := e
  cases call with
  | getWand power secret mem junk =>
      cases secret with
      | none => rfl
      | some r =>
          unfold passedBy
          dsimp only
          rw [sysMagicGetWand_of_wand hwand]
          rfl
  | fork child pid mem => rfl
  | attack pid => rfl
  | legilimens pid mem junk => rfl
  | listSecrets secrets size => rfl
  | magicClock seconds jiffies => rfl
  | exit => rfl
  | release p' => rfl

end Note

/-- The books are true of the live tasks: each wand holder has the secret it passed, each list has the
secrets that its victims had passed if they were alive, and no string twice. -/
structure Recorded (s : State) (xs : TaskId → List Addr) (b : TaskId → Book) : Prop where
  passed : ∀ q, s.Live q → (s.task q).holdingWand = true →
    text (stringAt s.heap (s.task q).mySecret) = (b q).passed ∧ (b q).passed ≠ []
  thefts : ∀ q, s.Live q → List.Forall₂ (fun w th => th.exited = false → w = th.secret ∧ w ≠ [])
    (stolenTexts s.heap (xs q)) (b q).thefts
  nodup : ∀ q, s.Live q → (stolenTexts s.heap (xs q)).Nodup
  bare : ∀ q, s.Live q → (s.task q).holdingWand = false → (b q).thefts = []

section Recorded

variable {s t : State} {e : Event} {xs ys : TaskId → List Addr} {b : TaskId → Book} {q : TaskId}

/-- The child of a fork has an empty list. -/
theorem Owns.entries_child (howns : Owns t ys) {parent : TaskId} {pid : Int32} {mem : Addr}
    (hstep : machine.Step s ⟨parent, .fork q pid mem⟩ t) (hhashed : Hashed s) (hq : t.Live q) : ys q = [] := by
  obtain ⟨⟨-, -, hfree, -⟩, hstep⟩ := hstep
  cases hstep
  have hmem : mem ≠ 0 := by
    rintro rfl
    exact not_mem_of_unused hhashed hfree _ hq.1
  have hring := (howns.keeps q hq).ring
  have hptr : ((doFork parent q pid mem s).2.task q).secretsPtr = mem := by
    rw [doFork_child hmem]
    dsimp only
    rw [Function.update_self]
    rfl
  have hnext : (doFork parent q pid mem s).2.heap.next mem = some mem := by
    rw [doFork_child hmem]
    dsimp only
    rw [Heap.next_alloc hmem, Function.update_self]
    rfl
  rw [hptr] at hring
  cases hys : ys q with
  | nil => rfl
  | cons x zs =>
      rw [hys] at hring
      obtain rfl : x = mem := Option.some.inj (hring.chain.1.symm.trans hnext)
      exact absurd List.mem_cons_self (List.nodup_cons.1 hring.nodup).1

/-- What a call that gets a wand passes is what it then has as its secret. -/
theorem passed_of_wand (hspelled : Spelled s e) (hstep : machine.Step s e t) {power : Int32} {r : SecretReads}
    {mem : Addr} {junk : Nat → UInt8} (he : e = ⟨q, .getWand power (some r) mem junk⟩)
    (hbare : (s.task q).holdingWand = false) (hwand : (t.task q).holdingWand = true) :
    ∃ w, passedBy s e = some w ∧ text (stringAt t.heap (t.task q).mySecret) = w ∧ w ≠ [] := by
  subst he
  obtain ⟨w, hw⟩ := hspelled power r mem junk rfl
  obtain ⟨⟨x, u⟩, hcall, heq⟩ := bind_eq_ok.1 hstep.2
  cases heq
  rcases sysMagicGetWand_cases hcall with ⟨-, rfl⟩ |
    ⟨r', hr, -, hfirst, ⟨-, -, rfl⟩ | ⟨hmem, bytes, -, -, hspells, hend⟩⟩
  · rw [hbare] at hwand
    cases hwand
  · rw [task_modTask_self] at hwand
    rw [hbare] at hwand
    cases hwand
  rcases hend with ⟨rfl, rfl⟩ | ⟨-, -, rfl⟩
  · cases hr
    refine ⟨w, ?_, ?_, ?_⟩
    · unfold passedBy
      dsimp only
      rw [hcall]
      dsimp only
      rw [if_pos rfl, userText_of_holds hw]
    · rw [withWand, task_modTask_self]
      dsimp only [State.modTask]
      rw [stringAt, Heap.cells_alloc hmem, Function.update_self]
      exact hspells.unique hw.copy
    · rintro rfl
      exact hfirst hw.first
  · rw [task_modTask_self] at hwand
    rw [hbare] at hwand
    cases hwand

theorem Recorded.passed_step (hrec : Recorded s xs b) (howns : Owns s xs) (hspelled : Spelled s e)
    (hstep : machine.Step s e t) (hcarries : Carries s t e q (xs q) (ys q)) (hs : s.Live q)
    (hexit : e ≠ ⟨q, .exit⟩) (hchild : ∀ parent pid mem, e ≠ ⟨parent, .fork q pid mem⟩)
    (hwand : (t.task q).holdingWand = true) :
    text (stringAt t.heap (t.task q).mySecret) = (note s e b q).passed ∧ (note s e b q).passed ≠ [] := by
  obtain ⟨-, hchange⟩ := hs.step howns.hashed hstep hexit
  rw [(note_of_ne hchild).1]
  cases hold : (s.task q).holdingWand with
  | true =>
      have hnote : (if e.current = q then (passedBy s e).getD (b q).passed else (b q).passed) = (b q).passed := by
        split
        · rename_i hcurrent
          rw [passedBy_of_wand (hcurrent ▸ hold)]
          rfl
        · rfl
      rw [hnote, howns.stringAt_step hstep hs hexit hold hcarries]
      exact hrec.passed q hs hold
  | false =>
      -- Only a call that gets a wand gives one.
      have hgets : ∃ power r mem junk, e = ⟨q, .getWand power (some r) mem junk⟩ := by
        generalize t.task q = u at hchange hwand
        cases hchange with
        | wand he hbare => exact ⟨_, _, _, _, he⟩
        | same => exact absurd hwand (ne_true_of_eq_false hold)
        | noMemory he hbare => exact absurd hwand (ne_true_of_eq_false hold)
        | changed he hbare hdiff => exact absurd hwand (ne_true_of_eq_false hold)
        | hit he hlands => exact absurd hwand (ne_true_of_eq_false hold)
        | clock he magicTime magicCallTime => exact absurd hwand (ne_true_of_eq_false hold)
        | exited he => exact absurd hwand (ne_true_of_eq_false hold)
      obtain ⟨power, r, mem, junk, he⟩ := hgets
      obtain ⟨w, hpassed, htext, hne⟩ := passed_of_wand hspelled hstep he hold hwand
      have hcurrent : e.current = q := by rw [he]
      rw [if_pos hcurrent, hpassed]
      exact ⟨htext, hne⟩

/-- What a step takes is what it writes down, if the victim was alive. -/
theorem Recorded.takings_loot (hrec : Recorded s xs b) (hgains : Gains s t e q (xs q) (ys q)) :
    List.Forall₂ (fun w th => th.exited = false → w = th.secret ∧ w ≠ []) (loot s e q) (takings s e b q) := by
  rw [loot, takings]
  split
  · rename_i hcurrent
    generalize ys q = zs at hgains
    cases hgains with
    | nothing hnone =>
        rw [hnone hcurrent]
        exact .nil
    | @secret pid mem junk v mine secret he hsteals hvictim hmine hspells hentry =>
        rw [hvictim]
        refine .cons (fun hlive => ?_) .nil
        obtain ⟨htext, hne⟩ := hrec.passed v ⟨visible_of_find hsteals.found, hlive⟩ hsteals.victimArmed
        exact ⟨htext, fun hnil => hne (htext.symm.trans hnil)⟩
  · exact .nil

/-- A secret that a task already has is not taken again. -/
theorem nodup_loot (hkeeps : Keeps s.heap (s.task q) (xs q)) (hgains : Gains s t e q (xs q) (ys q))
    (hnodup : (stolenTexts s.heap (xs q)).Nodup) : (stolenTexts s.heap (xs q) ++ loot s e q).Nodup := by
  generalize ys q = zs at hgains
  cases hgains with
  | nothing hnone =>
      have hloot : loot s e q = [] := by
        rw [loot]
        split
        · rename_i hcurrent
          rw [hnone hcurrent]
          rfl
        · rfl
      rw [hloot, List.append_nil]
      exact hnodup
  | @secret pid mem junk v mine secret he hsteals hvictim hmine hspells hentry =>
      have hcurrent : e.current = q := by rw [he]
      have hcontents : s.heap.contents Block.strip (s.task v).mySecret = some (.string mine) := by
        rw [Heap.contents, hmine]
        rfl
      have hunknown := hsteals.unknown
      rw [secretStolen_iff hkeeps hcontents (mem_of_spells hspells)] at hunknown
      have hnot : text mine ∉ stolenTexts s.heap (xs q) := of_decide_eq_false (Except.ok.inj hunknown)
      have hloot : loot s e q = [text mine] := by
        rw [loot, if_pos hcurrent, hvictim, Option.toList_some, List.map_singleton, stringAt_of_string hcontents]
      rw [hloot]
      exact List.nodup_append.2 ⟨hnodup, List.nodup_singleton _, fun w hw w' hw' => by
        rw [List.mem_singleton.1 hw']
        rintro rfl
        exact hnot hw⟩

theorem Recorded.bare_step (hrec : Recorded s xs b) (howns : Owns s xs) (hstep : machine.Step s e t)
    (hgains : Gains s t e q (xs q) (ys q)) (hs : s.Live q) (hexit : e ≠ ⟨q, .exit⟩)
    (hbare : (t.task q).holdingWand = false) : (b q).thefts ++ takings s e b q = [] := by
  obtain ⟨-, hchange⟩ := hs.step howns.hashed hstep hexit
  have hbare' : (s.task q).holdingWand = false := by
    by_contra hwand
    rw [(hchange.of_wand (eq_true_of_ne_false hwand)).1] at hbare
    cases hbare
  rw [hrec.bare q hs hbare', List.nil_append, takings]
  generalize ys q = zs at hgains
  cases hgains with
  | nothing hnone =>
      split
      · rename_i hcurrent
        rw [hnone hcurrent]
        rfl
      · rfl
  | secret he hsteals hvictim hmine hspells hentry =>
      rw [hsteals.armed] at hbare'
      cases hbare'

theorem Recorded.step (hrec : Recorded s xs b) (howns : Owns s xs) (howns' : Owns t ys) (hspelled : Spelled s e)
    (hstep : machine.Step s e t) (hcarries : ∀ q, s.Live q → t.Live q → Carries s t e q (xs q) (ys q)) :
    Recorded t ys (note s e b) := by
  have hnewborn : ∀ q, t.Live q → s.Live q ∧
      (∀ parent pid mem, e ≠ ⟨parent, .fork q pid mem⟩) ∧ e ≠ ⟨q, .exit⟩ ∨
      (t.task q).holdingWand = false ∧ ys q = [] ∧ note s e b q = ⟨[], []⟩ := by
    intro q hq
    rcases hq.of_step howns.hashed hstep with hs | ⟨parent, pid, mem, rfl, htask⟩
    · refine Or.inl ⟨hs, ?_, ?_⟩
      · rintro parent pid mem rfl
        exact howns.ne_of_unused hstep.1.2.2.1 hs rfl
      · rintro rfl
        exact not_live_of_exit hstep.2 hq
    · refine Or.inr ⟨?_, howns'.entries_child hstep howns.hashed hq, note_of_child rfl⟩
      rw [htask]
      rfl
  refine ⟨?_, ?_, ?_, ?_⟩
  · intro q hq hwand
    rcases hnewborn q hq with ⟨hs, hchild, hexit⟩ | ⟨hbare, -⟩
    · exact hrec.passed_step howns hspelled hstep (hcarries q hs hq) hs hexit hchild hwand
    · rw [hbare] at hwand
      cases hwand
  · intro q hq
    rcases hnewborn q hq with ⟨hs, hchild, -⟩ | ⟨-, hnil, hnote⟩
    · rw [(hcarries q hs hq).stolenTexts (howns.keeps q hs), (note_of_ne hchild).2]
      exact List.rel_append (hrec.thefts q hs) (hrec.takings_loot (hcarries q hs hq).entries)
    · rw [hnil, hnote]
      exact .nil
  · intro q hq
    rcases hnewborn q hq with ⟨hs, hchild, -⟩ | ⟨-, hnil, -⟩
    · rw [(hcarries q hs hq).stolenTexts (howns.keeps q hs)]
      exact nodup_loot (howns.keeps q hs) (hcarries q hs hq).entries (hrec.nodup q hs)
    · rw [hnil]
      exact List.nodup_nil
  · intro q hq hbare
    rcases hnewborn q hq with ⟨hs, hchild, hexit⟩ | ⟨-, -, hnote⟩
    · rw [(note_of_ne hchild).2]
      exact hrec.bare_step howns hstep (hcarries q hs hq).entries hs hexit hbare
    · rw [hnote]

end Recorded

/-- Runs start with empty books. -/
def Unwritten (x : State × (TaskId → Book)) : Prop := Initial x.1 ∧ x.2 = fun _ => ⟨[], []⟩

/-- The runs in which secrets end within `SECRET_MAXSIZE` bytes, with their history. -/
def historyMachine : Machine (State × (TaskId → Book)) Event Fault := (machine.restrict Spelled).record note

theorem recorded_of_reachable {x : State × (TaskId → Book)} (h : historyMachine.Reachable Unwritten x) :
    ∃ xs, Owns x.1 xs ∧ Recorded x.1 xs x.2 := by
  have hboth : (∃ xs, Owns x.1 xs ∧ Recorded x.1 xs x.2) ∧ Bare x.1 := by
    refine h.invariant (I := fun y => (∃ xs, Owns y.1 xs ∧ Recorded y.1 xs y.2) ∧ Bare y.1) ?_ ?_
    · rintro ⟨s, b⟩ ⟨hinit, rfl⟩
      have hbare : ∀ q, s.Live q → (s.task q).holdingWand = false := fun q hq => (hinit.bare q hq.1).1
      refine ⟨⟨_, owns_of_initial hinit, ⟨?_, fun q _ => .nil, fun q _ => List.nodup_nil, fun q _ _ => rfl⟩⟩,
        fun q hq => ⟨fun _ => (hinit.bare q hq).2, hinit.pid_pos q hq⟩⟩
      intro q hq hwand
      rw [hbare q hq] at hwand
      cases hwand
    · rintro ⟨s, b⟩ e ⟨t, b'⟩ - ⟨⟨xs, howns, hrec⟩, hbare⟩ hstep
      obtain ⟨hstep, hnote⟩ := Machine.record_step.1 hstep
      obtain ⟨hspelled, hstep⟩ := Machine.restrict_step.1 hstep
      obtain ⟨ys, howns', hcarries⟩ := howns.step (hbare.cleanExit hstep.1) hstep
      dsimp only at hnote
      subst hnote
      exact ⟨⟨ys, howns', hrec.step howns howns' hspelled hstep hcarries⟩,
        hbare.step howns.hashed (agreed_of_spelled hspelled) hstep⟩
  exact hboth.1

theorem texts_of_alive {ws : List (List UInt8)} {ths : List Theft}
    (h : List.Forall₂ (fun w th => th.exited = false → w = th.secret ∧ w ≠ []) ws ths)
    (halive : ∀ th ∈ ths, th.exited = false) : ws = ths.map Theft.secret ∧ ∀ w ∈ ws, w ≠ [] := by
  induction h with
  | nil => exact ⟨rfl, fun w hw => absurd hw List.not_mem_nil⟩
  | cons hfirst hrest ih =>
      obtain ⟨heq, hne⟩ := ih fun th hth => halive th (List.mem_cons_of_mem _ hth)
      obtain ⟨heq', hne'⟩ := hfirst (halive _ List.mem_cons_self)
      refine ⟨?_, fun w hw => ?_⟩
      · rw [List.map_cons, ← heq, ← heq']
      · rcases List.mem_cons.1 hw with rfl | hw
        · exact hne'
        · exact hne w hw

/-- What a task with a wand is told of its `n` thefts, all from victims that were alive. The call returns
and leaves in the user's array the strings that the victims had passed, in the order of the thefts, all
different and none empty, then empty strings, and the rest as it was; so that the strings before the first
empty one and the number returned make up `n`. Without a wand there is no theft, and the call fails. -/
theorem list_secrets_round_trip {s : State} {b : TaskId → Book} {p : TaskId}
    (h : historyMachine.Reachable Unwritten (s, b)) (hp : s.Live p)
    (hvictims : ∀ th ∈ (b p).thefts, th.exited = false) :
    ((s.task p).holdingWand = false → (b p).thefts = [] ∧
      ∀ array size, sysMagicListSecrets p array size s = .ok (-EPERM, [])) ∧
    ((s.task p).holdingWand = true → ((b p).thefts.map Theft.secret).Nodup ∧
      (∀ th ∈ (b p).thefts, th.secret ≠ []) ∧
      ∀ array size, (size ≠ 0 → ∃ room, array = some room ∧ ∀ i < size, secretMaxsize ≤ room i) →
        ∃ out, sysMagicListSecrets p array size s =
            .ok (((b p).thefts.length : Int) - (min (b p).thefts.length size : Nat), out) ∧ ∀ buf,
          (∀ i (hi : i < (b p).thefts.length), i < size → text (written out buf i) = (b p).thefts[i].secret) ∧
          (∀ i, (b p).thefts.length ≤ i → i < size → text (written out buf i) = []) ∧
          (∀ i, size ≤ i → written out buf i = buf i) ∧
          (((List.range size).takeWhile fun i => text (written out buf i) ≠ []).length : Int) +
            ((b p).thefts.length - (min (b p).thefts.length size : Nat)) = (b p).thefts.length) := by
  obtain ⟨xs, howns, hrec⟩ := recorded_of_reachable h
  refine ⟨fun hbare => ⟨hrec.bare p hp hbare, fun array size => ?_⟩, fun hwand => ?_⟩
  · unfold sysMagicListSecrets
    rw [if_pos hbare]
  -- The strings in the list are those in the book.
  obtain ⟨htexts, hnonempty⟩ := texts_of_alive (hrec.thefts p hp) hvictims
  have hlen : (xs p).length = (b p).thefts.length := by
    have hcongr := congrArg List.length htexts
    rw [stolenTexts, List.length_map, List.length_map] at hcongr
    exact hcongr
  have hne : ∀ a ∈ xs p, text (secretAt s.heap a) ≠ [] := fun a ha =>
    hnonempty _ (List.mem_map.2 ⟨a, ha, rfl⟩)
  have hzero : ∀ a ∈ xs p, 0 ∈ secretAt s.heap a := fun a ha => (loadSecret_of_keeps (howns.keeps p hp) ha).2
  refine ⟨htexts ▸ hrec.nodup p hp, fun th hth => ?_, fun array size harray => ?_⟩
  · have hmem : th.secret ∈ stolenTexts s.heap (xs p) := by
      rw [htexts]
      exact List.mem_map.2 ⟨th, hth, rfl⟩
    exact hnonempty _ hmem
  · have hcall := sysMagicListSecrets_eq (howns.keeps p hp) hwand harray
    rw [hlen] at hcall
    refine ⟨_, hcall, fun buf => ?_⟩
    have hlisted : written (copies 0 ((secrets s.heap (xs p)).take size) ++
        pads (b p).thefts.length (size - (b p).thefts.length)) buf = listed s.heap (xs p) size buf := by
      rw [listed, hlen]
    rw [hlisted]
    refine ⟨fun i hi hsize => ?_, fun i hi hsize => listed_pad (hlen.trans_le hi) hsize,
      fun i hi => listed_of_le hi, ?_⟩
    · have hi' : i < (xs p).length := hi.trans_eq hlen.symm
      have hget : (stolenTexts s.heap (xs p))[i]? = ((b p).thefts.map Theft.secret)[i]? := by rw [htexts]
      rw [stolenTexts, List.getElem?_map, List.getElem?_map, List.getElem?_eq_getElem hi',
        List.getElem?_eq_getElem hi] at hget
      rw [listed_of_lt hi' (hzero _ (List.getElem_mem hi')) hsize]
      exact Option.some.inj hget
    · rw [length_takeWhile_listed hzero hne, hlen]
      omega

theorem oneLetter_holds {c : UInt8} (hc : c ≠ 0) : (oneLetter c).Holds [c] :=
  ⟨(by decide : 1 < secretMaxsize), rfl, ⟨rfl, hc, rfl⟩, ⟨rfl, hc, rfl⟩, ⟨rfl, hc, rfl⟩⟩

theorem spelled_oneLetter (s : State) (p : TaskId) (power : Int32) {c : UInt8} (hc : c ≠ 0) (mem : Addr)
    (junk : Nat → UInt8) : Spelled s ⟨p, .getWand power (some (oneLetter c)) mem junk⟩ := by
  rintro _ _ _ _ ⟨rfl⟩
  exact ⟨_, oneLetter_holds hc⟩

/-- The second task steals from the first, and from a third that exits then. -/
def spreeEvents : List Event :=
  armedEvents ++ [⟨2, .legilimens 1 5 fun _ => 7⟩, ⟨1, .fork 3 3 6⟩,
    ⟨3, .getWand 1 (some (oneLetter 99)) 7 fun _ => 7⟩, ⟨2, .legilimens 3 8 fun _ => 7⟩, ⟨3, .exit⟩]

def spree : State × (TaskId → Book) := (machine.record note).after (boot, fun _ => ⟨[], []⟩) spreeEvents

theorem spree_reachable : historyMachine.Reachable Unwritten spree := by
  have hrun : (machine.record note).Run (boot, fun _ => ⟨[], []⟩) spreeEvents spree :=
    Machine.run_after (by decide +kernel)
  have hspelled : ∀ e ∈ spreeEvents, ∀ x : State × (TaskId → Book), Spelled x.1 e := by
    intro e he x
    rcases List.mem_append.1 he with he | he
    · exact forall_armedEvents (C := Spelled x.1) nofun (spelled_oneLetter _ _ _ (by decide) _ _)
        (spelled_oneLetter _ _ _ (by decide) _ _) e he
    rcases List.mem_cons.1 he with rfl | he
    · nofun
    rcases List.mem_cons.1 he with rfl | he
    · nofun
    rcases List.mem_cons.1 he with rfl | he
    · exact spelled_oneLetter _ _ _ (by decide) _ _
    rcases List.mem_pair.1 he with rfl | rfl
    · nofun
    · nofun
  exact ⟨(boot, fun _ => ⟨[], []⟩), spreeEvents, ⟨boot_initial, rfl⟩, hrun.restrict_of_forall hspelled⟩

/-- The thief is told of both secrets, the second of a victim that is gone. -/
theorem list_secrets_round_trip_spree :
    historyMachine.Reachable Unwritten spree ∧
      ∃ out, sysMagicListSecrets 2 (some fun _ => secretMaxsize) 3 spree.1 = .ok (0, out) ∧ ∀ buf,
        text (written out buf 0) = [97] ∧ text (written out buf 1) = [99] ∧ text (written out buf 2) = [] ∧
          written out buf 3 = buf 3 := by
  have hthefts : (spree.2 2).thefts = [⟨false, [97]⟩, ⟨false, [99]⟩] := by decide +kernel
  have hlive : spree.1.Live 2 := ⟨by decide +kernel, by decide +kernel⟩
  have hwand : (spree.1.task 2).holdingWand = true := by decide +kernel
  have hreach := spree_reachable
  -- What follows needs nothing more of the state and the books.
  generalize spree = x at *
  obtain ⟨s, b⟩ := x
  dsimp only at hthefts hlive hwand
  have halive : ∀ th ∈ (b 2).thefts, th.exited = false := by
    rw [hthefts]
    decide
  obtain ⟨-, -, hlist⟩ := (list_secrets_round_trip hreach hlive halive).2 hwand
  obtain ⟨out, hcall, hbuf⟩ := hlist (some fun _ => secretMaxsize) 3 fun _ => ⟨_, rfl, fun _ _ => Nat.le_refl _⟩
  simp only [hthefts] at hcall hbuf
  refine ⟨hreach, out, hcall, fun buf => ?_⟩
  obtain ⟨hcopied, hpadded, hrest, -⟩ := hbuf buf
  exact ⟨hcopied 0 (by decide) (by decide), hcopied 1 (by decide) (by decide), hpadded 2 (by decide) (by decide),
    hrest 3 (by decide)⟩

/-- A task that has never had a wand has stolen nothing, and is refused the list of its thefts. -/
theorem boot_listSecrets :
    historyMachine.Reachable Unwritten (boot, fun _ => ⟨[], []⟩) ∧ boot.Live 1 ∧
      sysMagicListSecrets 1 none 0 boot = .ok (-EPERM, []) ∧ -EPERM ≠ (0 : Int) - (min 0 0 : Nat) :=
  ⟨⟨_, [], ⟨boot_initial, rfl⟩, .nil _⟩, ⟨by decide +kernel, rfl⟩, rfl, by decide⟩

end MagicKernel.Wand
