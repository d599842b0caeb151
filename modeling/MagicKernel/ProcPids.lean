import Mathlib.Data.List.Nodup
import Mathlib.Data.List.Perm.Basic
import Mathlib.Data.Nat.Bitwise
import MagicKernel.ProcModel

/-! `get_pid`. The search over the tasks comes to an end, what it finds is no number of any task, and it finds a
number unless all of them are taken. -/

namespace MagicKernel.Proc

open FaultMachine

variable {s : State} {tasks : List TaskId} {p : TaskId} {last safe i g beginPid fuel : Nat}

/-! ### One scan -/

/-- The number is one of some task. -/
def Used (s : State) (tasks : List TaskId) (i : Nat) : Prop := ∃ p ∈ tasks, i ∈ s.ids p

theorem lowerSafe_spec (h : last < safe) (i : Nat) :
    lowerSafe last safe i ≤ safe ∧ last < lowerSafe last safe i ∧ (last < i → lowerSafe last safe i ≤ i) := by
  rw [lowerSafe]
  split <;> omega

theorem foldl_lowerSafe (l : List Nat) (h : last < safe) :
    l.foldl (lowerSafe last) safe ≤ safe ∧ last < l.foldl (lowerSafe last) safe ∧
      ∀ i ∈ l, last < i → l.foldl (lowerSafe last) safe ≤ i := by
  induction l generalizing safe with
  | nil => exact ⟨le_rfl, h, fun i hi => absurd hi List.not_mem_nil⟩
  | cons j l ih =>
      obtain ⟨hle, hlt, hj⟩ := lowerSafe_spec h j
      obtain ⟨hle', hlt', hl⟩ := ih hlt
      refine ⟨hle'.trans hle, hlt', fun i hi hlast => ?_⟩
      rcases List.mem_cons.1 hi with rfl | hi
      · exact hle'.trans (hj hlast)
      · exact hl i hi hlast

theorem not_used_nil : ¬Used s [] i := by
  rintro ⟨p, hp, -⟩
  cases hp

/-- A scan either meets the number it looks for, or leaves a gap behind it that no task has a number in. -/
theorem scanPids_spec (s : State) (l : List TaskId) (h : last < safe) :
    (scanPids s last l safe).2 ≤ safe ∧ last < (scanPids s last l safe).2 ∧
      ((scanPids s last l safe).1 = true ↔ ¬Used s l last) ∧
      ((scanPids s last l safe).1 = true → ∀ i, Used s l i → last < i → (scanPids s last l safe).2 ≤ i) := by
  induction l generalizing safe with
  | nil => exact ⟨le_rfl, h, ⟨fun _ => not_used_nil, fun _ => rfl⟩, fun _ i hi => absurd hi not_used_nil⟩
  | cons p l ih =>
      rw [scanPids]
      split
      · rename_i hmem
        exact ⟨le_rfl, h, ⟨(absurd · Bool.false_ne_true), fun hnot => absurd ⟨p, List.mem_cons_self, hmem⟩ hnot⟩,
          (absurd · Bool.false_ne_true)⟩
      · rename_i hmem
        obtain ⟨hle, hlt, hfold⟩ := foldl_lowerSafe (s.ids p) h
        obtain ⟨hle', hlt', hiff, hgap⟩ := ih hlt
        refine ⟨hle'.trans hle, hlt', hiff.trans (not_congr ⟨?_, ?_⟩), fun htrue i hi hlast => ?_⟩
        · rintro ⟨q, hq, hi⟩
          exact ⟨q, List.mem_cons_of_mem p hq, hi⟩
        · rintro ⟨q, hq, hi⟩
          rcases List.mem_cons.1 hq with rfl | hq
          · exact absurd hi hmem
          · exact ⟨q, hq, hi⟩
        · obtain ⟨q, hq, hiq⟩ := hi
          rcases List.mem_cons.1 hq with rfl | hq
          · exact hle'.trans (hfold i hiq hlast)
          · exact hgap htrue i ⟨q, hq, hiq⟩ hlast

/-! ### The order in which the numbers are tried -/

theorem and_mask_eq_zero (h : last < pidMax) : last &&& 0xffff8000 = 0 := by
  refine Nat.eq_of_testBit_eq fun k => ?_
  rw [Nat.testBit_and, Nat.zero_testBit]
  by_cases hk : k < 15
  · have hmask : (0x1ffff <<< 15 : Nat).testBit k = false := by
      rw [Nat.testBit_shiftLeft, decide_eq_false (show ¬k ≥ 15 by omega)]
      rfl
    rw [show (0xffff8000 : Nat) = 0x1ffff <<< 15 from rfl, hmask, Bool.and_false]
  · have hpow : 2 ^ 15 ≤ 2 ^ k := Nat.pow_le_pow_right (by decide) (Nat.le_of_not_lt hk)
    rw [Nat.testBit_lt_two_pow (lt_of_lt_of_le h hpow), Bool.false_and]

theorem wrapPid_eq (h : last ≤ pidMax) : wrapPid last = if last = pidMax then 300 else last := by
  rw [wrapPid]
  by_cases hlast : last = pidMax
  · subst hlast
    rfl
  · rw [and_mask_eq_zero (lt_of_le_of_ne h hlast), if_neg (fun h => h rfl), if_neg hlast]

/-- How many numbers are tried from `last` on before it is the turn of `g`. -/
def turns (last g : Nat) : Nat := if last ≤ g then g - last else pidMax - last + (g - 300)

/-- The next number, and how far a scan that is under way may be trusted. -/
def nextPid (last safe : Nat) : Nat × Nat :=
  if safe ≤ last + 1 then (wrapPid (last + 1), pidMax) else (last + 1, safe)

theorem nextPid_spec (hlast : last < pidMax) (hlt : last < safe) (hsafe : safe ≤ pidMax) :
    (nextPid last safe).1 = (if last + 1 = pidMax then 300 else last + 1) ∧
      (nextPid last safe).1 < (nextPid last safe).2 ∧ (nextPid last safe).2 ≤ pidMax := by
  have hmax : pidMax = 32768 := rfl
  have hwrap : wrapPid (last + 1) = if last + 1 = pidMax then 300 else last + 1 := wrapPid_eq (by omega)
  rw [nextPid]
  split
  · rw [hwrap]
    refine ⟨rfl, ?_, le_rfl⟩
    split <;> omega
  · rename_i h
    refine ⟨?_, by omega, hsafe⟩
    rw [if_neg (by omega)]

theorem turns_next (hlast : last < pidMax) (hg : 300 ≤ g) (hgmax : g < pidMax) (hne : last ≠ g) :
    turns (if last + 1 = pidMax then 300 else last + 1) g + 1 = turns last g := by
  have hmax : pidMax = 32768 := rfl
  simp only [turns]
  by_cases hmaxlast : last + 1 = pidMax
  · rw [if_pos hmaxlast, if_pos hg, if_neg (by omega)]
    omega
  · rw [if_neg hmaxlast]
    split <;> split <;> omega

theorem searchPid_succ : searchPid s tasks beginPid (fuel + 1) last safe =
    if (scanPids s last tasks safe).1 = true then .ok (true, last, (scanPids s last tasks safe).2)
    else if (nextPid last (scanPids s last tasks safe).2).1 = beginPid then
      .ok (false, nextPid last (scanPids s last tasks safe).2)
    else searchPid s tasks beginPid fuel (nextPid last (scanPids s last tasks safe).2).1
      (nextPid last (scanPids s last tasks safe).2).2 := by
  rw [searchPid]
  rcases scanPids s last tasks safe with ⟨_ | _, safe'⟩ <;> rfl

/-- The search ends at the latest when the turn comes of a number that is not used, or of the one it began at. -/
theorem searchPid_total (hlast : last < pidMax) (hlt : last < safe) (hsafe : safe ≤ pidMax) (hg : 300 ≤ g)
    (hgmax : g < pidMax) (hstop : ¬Used s tasks g ∨ g = beginPid ∧ last ≠ g) (hfuel : turns last g < fuel) :
    ∃ r, searchPid s tasks beginPid fuel last safe = .ok r := by
  induction fuel generalizing last safe with
  | zero => exact absurd hfuel (Nat.not_lt_zero _)
  | succ fuel ih =>
      obtain ⟨hle, hlt', hiff, -⟩ := scanPids_spec s tasks hlt
      obtain ⟨hnext, hnlt, hnle⟩ := nextPid_spec hlast hlt' (hle.trans hsafe)
      rw [searchPid_succ]
      split
      · exact ⟨_, rfl⟩
      · rename_i hused
        split
        · exact ⟨_, rfl⟩
        · rename_i hbegin
          have hne : last ≠ g := by
            rintro rfl
            exact hstop.elim (fun h => hused (hiff.2 h)) fun h => h.2 rfl
          have hturns := turns_next hlast hg hgmax hne
          refine ih (hnlt.trans_le hnle) hnlt hnle (hstop.imp_right fun h => ⟨h.1, ?_⟩) ?_
          · rw [h.1]
            exact hbegin
          · rw [hnext]
            omega

/-- What the search ends with. -/
theorem searchPid_spec {r : Bool × Nat × Nat} (hlast : last < pidMax) (hlt : last < safe) (hsafe : safe ≤ pidMax)
    (hr : searchPid s tasks beginPid fuel last safe = .ok r) :
    r.2.1 < pidMax ∧ r.2.2 ≤ pidMax ∧ (300 ≤ r.2.1 ∨ last ≤ r.2.1) ∧ (r.1 = false → r.2.1 = beginPid) ∧
      (r.1 = true → ¬Used s tasks r.2.1 ∧ ∀ i, Used s tasks i → r.2.1 < i → r.2.2 ≤ i) := by
  have hmax : pidMax = 32768 := rfl
  induction fuel generalizing last safe with
  | zero => cases hr
  | succ fuel ih =>
      obtain ⟨hle, hlt', hiff, hgap⟩ := scanPids_spec s tasks hlt
      obtain ⟨hnext, hnlt, hnle⟩ := nextPid_spec hlast hlt' (hle.trans hsafe)
      rw [searchPid_succ] at hr
      have hforward : 300 ≤ (nextPid last (scanPids s last tasks safe).2).1 ∨
          last ≤ (nextPid last (scanPids s last tasks safe).2).1 := by
        rw [hnext]
        split <;> omega
      split at hr
      · rename_i hfound
        cases hr
        exact ⟨hlast, hle.trans hsafe, .inr le_rfl, (absurd · Bool.true_eq_false.mp), fun _ =>
          ⟨hiff.1 hfound, hgap hfound⟩⟩
      · split at hr
        · rename_i hbegin
          cases hr
          exact ⟨hnlt.trans_le hnle, hnle, hforward, fun _ => hbegin, (absurd · Bool.false_ne_true)⟩
        · obtain ⟨h₁, h₂, h₃, h₄⟩ := ih (hnlt.trans_le hnle) hnlt hnle hr
          exact ⟨h₁, h₂, by omega, h₄⟩

/-- The turn of `beginPid` does not come before that of `g`. -/
def Clear (beginPid last g : Nat) : Prop :=
  if last ≤ g then ¬(last < beginPid ∧ beginPid ≤ g) else beginPid ≤ last ∧ ¬(300 ≤ beginPid ∧ beginPid ≤ g)

theorem clear_next (hlast : last < pidMax) (hg : 300 ≤ g) (hgmax : g < pidMax) (hne : last ≠ g)
    (h : Clear beginPid last g) : (if last + 1 = pidMax then 300 else last + 1) ≠ beginPid ∧
      Clear beginPid (if last + 1 = pidMax then 300 else last + 1) g := by
  have hmax : pidMax = 32768 := rfl
  simp only [Clear] at h ⊢
  split at h <;> split <;> (try split) <;> omega

/-- A number that is not used is found. -/
theorem searchPid_found (hlast : last < pidMax) (hlt : last < safe) (hsafe : safe ≤ pidMax) (hg : 300 ≤ g)
    (hgmax : g < pidMax) (hfree : ¬Used s tasks g) (hclear : Clear beginPid last g) (hfuel : turns last g < fuel) :
    ∃ r, searchPid s tasks beginPid fuel last safe = .ok (true, r) := by
  induction fuel generalizing last safe with
  | zero => exact absurd hfuel (Nat.not_lt_zero _)
  | succ fuel ih =>
      obtain ⟨hle, hlt', hiff, -⟩ := scanPids_spec s tasks hlt
      obtain ⟨hnext, hnlt, hnle⟩ := nextPid_spec hlast hlt' (hle.trans hsafe)
      rw [searchPid_succ]
      split
      · exact ⟨_, rfl⟩
      · rename_i hused
        have hne : last ≠ g := by
          rintro rfl
          exact hused (hiff.2 hfree)
        obtain ⟨hbegin, hclear'⟩ := clear_next hlast hg hgmax hne hclear
        have hturns := turns_next hlast hg hgmax hne
        rw [← hnext] at hbegin hclear' hturns
        rw [if_neg hbegin]
        exact ih (hnlt.trans_le hnle) hnlt hnle hclear' (by omega)

/-! ### `get_pid` -/

/-- The counters of `get_pid` are in their bounds, and no number above `last_pid` has been used before the first
wrap. -/
structure Numbered (s : State) (tasks : List TaskId) : Prop where
  last_lt : s.lastPid < pidMax
  safe_le : s.nextSafe ≤ pidMax
  early : 300 ≤ s.lastPid ∨ ∀ i, Used s tasks i → i ≤ s.lastPid

/-- No task has a number between `last_pid` and `next_safe`. -/
def Gap (s : State) (tasks : List TaskId) : Prop := ∀ i, Used s tasks i → s.lastPid < i → s.nextSafe ≤ i

/-- There are numbers left above 300, beside the last one given out. -/
def Free (s : State) (tasks : List TaskId) : Prop := ∃ g, 300 ≤ g ∧ g < pidMax ∧ g ≠ s.lastPid ∧ ¬Used s tasks g

theorem length_flatMap_ids (s : State) (l : List TaskId) : (l.flatMap s.ids).length = 4 * l.length := by
  induction l with
  | nil => rfl
  | cons p l ih =>
      have hids : (s.ids p).length = 4 := rfl
      rw [List.flatMap_cons, List.length_append, ih, hids, List.length_cons]
      omega

theorem free_of_length (h : 4 * tasks.length + 301 < pidMax) : Free s tasks := by
  by_contra hnone
  have hused : ∀ g, 300 ≤ g → g < pidMax → g ≠ s.lastPid → Used s tasks g := by
    intro g hg hgmax hne
    by_contra hfree
    exact hnone ⟨g, hg, hgmax, hne, hfree⟩
  -- All numbers but one are among the four of every task.
  have hnodup : (List.range' 300 (pidMax - 300)).Nodup := List.nodup_range'
  have hsub : (List.range' 300 (pidMax - 300)).erase s.lastPid ⊆ tasks.flatMap s.ids := by
    intro g hg
    rw [hnodup.mem_erase_iff, List.mem_range'_1] at hg
    obtain ⟨p, hp, hi⟩ := hused g hg.2.1 (by omega) hg.1
    exact List.mem_flatMap.2 ⟨p, hp, hi⟩
  have hle := (List.subperm_of_subset (hnodup.erase s.lastPid) hsub).length_le
  have herase : (List.range' 300 (pidMax - 300)).length - 1 ≤
      ((List.range' 300 (pidMax - 300)).erase s.lastPid).length :=
    List.le_length_erase
  rw [length_flatMap_ids] at hle
  rw [List.length_range'] at herase
  omega

/-- The state after `get_pid`. -/
def State.numbered (s : State) (last safe : Nat) : State := { s with lastPid := last, nextSafe := safe }

theorem turns_lt (hlast : last < pidMax) (hg : g < pidMax) : turns last g < 2 * pidMax := by
  simp only [turns]
  split <;> omega

/-- A search through the tasks, from the number after the last one on. -/
theorem rescanPids_spec (hn : Numbered s tasks) (ht : s.forEachTask = .ok tasks)
    (hstart : last = (if s.lastPid + 1 = pidMax then 300 else s.lastPid + 1)) :
    ∃ pid last' safe, rescanPids last s.lastPid s = .ok (pid, s.numbered last' safe) ∧
      Numbered (s.numbered last' safe) tasks ∧ (pid = 0 ∨ pid = last') ∧
      (pid ≠ 0 → ¬Used s tasks pid ∧ Gap (s.numbered last' safe) tasks) ∧ (Free s tasks → pid ≠ 0) := by
  have hmax : pidMax = 32768 := rfl
  have hlt := hn.last_lt
  have hlast : last < pidMax := by
    rw [hstart]
    split <;> omega
  have htotal : ∃ r, searchPid s tasks s.lastPid (2 * pidMax) last pidMax = .ok r := by
    rcases hn.early with hearly | hearly
    · exact searchPid_total hlast hlast le_rfl hearly hlt (.inr ⟨rfl, by rw [hstart]; split <;> omega⟩)
        (turns_lt hlast hlt)
    · by_cases hle : 300 ≤ s.lastPid
      · exact searchPid_total hlast hlast le_rfl hle hlt (.inr ⟨rfl, by rw [hstart]; split <;> omega⟩)
          (turns_lt hlast hlt)
      · -- Nothing above `last_pid` is used yet.
        have hunused : ¬Used s tasks last := fun h => by
          have hle' := hearly last h
          rw [hstart, if_neg (by omega)] at hle'
          omega
        have hfound := (scanPids_spec s tasks hlast).2.2.1.2 hunused
        rw [show 2 * pidMax = (2 * pidMax - 1) + 1 from rfl, searchPid_succ, if_pos hfound]
        exact ⟨_, rfl⟩
  obtain ⟨⟨found, last', safe⟩, hr⟩ := htotal
  obtain ⟨h₁, h₂, h₃, -, hfound⟩ := searchPid_spec hlast hlast le_rfl hr
  refine ⟨if found then last' else 0, last', safe, ?_, ⟨h₁, h₂, ?_⟩, ?_, fun hpid => ?_, fun hfree => ?_⟩
  · rw [rescanPids, ht, ok_bind, hr, ok_bind]
    rfl
  · change 300 ≤ last' ∨ last ≤ last' at h₃
    rcases h₃ with h₃ | h₃
    · exact .inl h₃
    · by_cases hle : 300 ≤ last'
      · exact .inl hle
      · refine .inr fun i hi => ?_
        change i ≤ last'
        have hsmall : s.lastPid + 1 ≤ last' := by
          rw [hstart] at h₃
          split at h₃ <;> omega
        rcases hn.early with hearly | hearly
        · exact absurd (hearly.trans (Nat.le_of_succ_le hsmall)) hle
        · exact (hearly i hi).trans (Nat.le_of_succ_le hsmall)
  · cases found <;> simp
  · cases found with
    | false => exact absurd rfl hpid
    | true => exact hfound rfl
  · obtain ⟨g, hg, hgmax, hne, hunused⟩ := hfree
    have hclear : Clear s.lastPid last g := by
      by_cases hwrap : s.lastPid + 1 = pidMax
      · rw [hstart, if_pos hwrap, Clear, if_pos hg]
        omega
      · rw [hstart, if_neg hwrap, Clear]
        split <;> omega
    obtain ⟨r, hr'⟩ := searchPid_found hlast hlast le_rfl hg hgmax hunused hclear (turns_lt hlast hgmax)
    rw [hr] at hr'
    cases hr'
    have hpos : 0 < last' := by
      rw [hstart] at h₃
      change 300 ≤ last' ∨ _ ≤ last' at h₃
      split at h₃ <;> omega
    exact hpos.ne'

theorem getPid_spec (hn : Numbered s tasks) (ht : s.forEachTask = .ok tasks) {flags : UInt32}
    (hflags : flags &&& CLONE_PID = 0) (current : TaskId) :
    ∃ pid last safe, getPid current flags s = .ok (pid, s.numbered last safe) ∧ Numbered (s.numbered last safe) tasks ∧
      (pid = 0 ∨ pid = last) ∧ (Gap s tasks → pid ≠ 0 → ¬Used s tasks pid ∧ Gap (s.numbered last safe) tasks) ∧
      (Free s tasks → pid ≠ 0) := by
  have hmax : pidMax = 32768 := rfl
  have hlt := hn.last_lt
  rw [getPid, if_neg (fun h => h hflags)]
  by_cases hwrap : s.lastPid + 1 = pidMax
  · obtain ⟨pid, last, safe, heq, hnum, hpid, hgap, hfree⟩ := rescanPids_spec hn ht (if_pos hwrap).symm
    refine ⟨pid, last, safe, ?_, hnum, hpid, fun _ => hgap, hfree⟩
    rw [hwrap]
    exact (if_pos (by decide)).trans heq
  · have hmask : s.lastPid + 1 &&& 0xffff8000 = 0 := and_mask_eq_zero (by omega)
    dsimp only
    rw [hmask, if_neg (fun h => h rfl)]
    split
    · obtain ⟨pid, last, safe, heq, hnum, hpid, hgap, hfree⟩ := rescanPids_spec hn ht (if_neg hwrap).symm
      exact ⟨pid, last, safe, heq, hnum, hpid, fun _ => hgap, hfree⟩
    · rename_i hsafe
      refine ⟨s.lastPid + 1, s.lastPid + 1, s.nextSafe, rfl, ⟨?_, hn.safe_le, ?_⟩, .inr rfl, fun hgap _ => ⟨?_, ?_⟩,
        fun _ => Nat.succ_ne_zero _⟩
      · change s.lastPid + 1 < pidMax
        omega
      · exact hn.early.imp (fun h => Nat.le_succ_of_le h) fun h i hi => Nat.le_succ_of_le (h i hi)
      · exact fun hused => hsafe (hgap _ hused (Nat.lt_succ_self _))
      · exact fun i hi hlast => hgap i hi ((Nat.lt_succ_self _).trans hlast)

end MagicKernel.Proc
