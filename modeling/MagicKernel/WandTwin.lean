import MagicKernel.RelatedHeaps
import MagicKernel.WandBuffer
import MagicKernel.WandStrings

/-! Two runs of the same calls that differ in what `kmalloc` finds in the memory it yields. They go the
same way: the strings in their blocks are the same up to the first NUL, and no call but
`sys_magic_list_secrets` looks beyond it. That call copies entries as far as the array has room, and with
them bytes after the NUL, which nobody has written. -/

namespace MagicKernel.Wand

open FaultMachine BlockHeap FaultingStores

/-! ### Strings that are the same up to the first NUL -/

def AlikeBytes (src src' : Bytes) : Prop := ∀ n, (∀ i < n, src i ≠ some 0) → src' n = src n

/-- Blocks of the same size with the same string in them. -/
def Alike (cs ds : List UInt8) : Prop := cs.length = ds.length ∧ AlikeBytes (ofBlock cs) (ofBlock ds)

theorem AlikeBytes.refl (src : Bytes) : AlikeBytes src src := fun _ _ => rfl

section Alike

variable {src src' : Bytes} {cs ds : List UInt8} {c d : UInt8}

theorem AlikeBytes.head (h : AlikeBytes src src') : src' 0 = src 0 :=
  h 0 fun i hi => absurd hi (Nat.not_lt_zero i)

theorem AlikeBytes.tail (h : AlikeBytes src src') (hne : src 0 ≠ some 0) :
    AlikeBytes (fun i => src (i + 1)) fun i => src' (i + 1) := by
  intro n hn
  apply h (n + 1)
  intro i hi
  cases i with
  | zero => exact hne
  | succ i => exact hn i (Nat.lt_of_succ_lt_succ hi)

theorem alike_zero (hlen : cs.length = ds.length) : Alike (0 :: cs) (0 :: ds) := by
  refine ⟨congrArg (· + 1) hlen, fun n hn => ?_⟩
  cases n with
  | zero => rfl
  | succ n => exact absurd rfl (hn 0 (Nat.succ_pos n))

theorem Alike.cons (h : Alike cs ds) (c : UInt8) : Alike (c :: cs) (c :: ds) := by
  refine ⟨congrArg (· + 1) h.1, fun n hn => ?_⟩
  cases n with
  | zero => rfl
  | succ n => exact h.2 n fun i hi => hn (i + 1) (Nat.succ_lt_succ hi)

theorem Alike.head_eq (h : Alike (c :: cs) (d :: ds)) : c = d :=
  (Option.some.inj h.2.head).symm

theorem Alike.of_cons (h : Alike (c :: cs) (d :: ds)) (hc : c ≠ 0) : Alike cs ds :=
  ⟨Nat.succ.inj h.1, h.2.tail fun heq => hc (Option.some.inj heq)⟩

theorem Alike.zero_mem (h : Alike cs ds) : 0 ∈ ds ↔ 0 ∈ cs := by
  induction cs generalizing ds with
  | nil =>
      cases ds with
      | nil => rfl
      | cons d ds => cases h.1
  | cons c cs ih =>
      cases ds with
      | nil => cases h.1
      | cons d ds =>
          obtain rfl : c = d := h.head_eq
          by_cases hc : c = 0
          · subst hc
            exact iff_of_true List.mem_cons_self List.mem_cons_self
          · rw [List.mem_cons, List.mem_cons, or_iff_right (Ne.symm hc), or_iff_right (Ne.symm hc)]
            exact ih (h.of_cons hc)

/-- Up to the NUL the bytes are the same. -/
theorem Alike.take_eq (h : Alike cs ds) {n : Nat} (hn : n ≤ (text cs).length + 1) : ds.take n = cs.take n := by
  induction cs generalizing ds n with
  | nil =>
      cases ds with
      | nil => rfl
      | cons d ds => cases h.1
  | cons c cs ih =>
      cases ds with
      | nil => cases h.1
      | cons d ds =>
          obtain rfl : c = d := h.head_eq
          cases n with
          | zero => rfl
          | succ n =>
              rw [List.take_succ_cons, List.take_succ_cons]
              by_cases hc : c = 0
              · subst hc
                rw [text_zero] at hn
                obtain rfl : n = 0 := Nat.le_zero.1 (Nat.le_of_succ_le_succ hn)
                rfl
              · rw [text_cons hc, List.length_cons] at hn
                rw [ih (h.of_cons hc) (Nat.le_of_succ_le_succ hn)]

theorem strcmp_alike (hcs : Alike cs ds) (hct : AlikeBytes src src') : strcmp ds src' = strcmp cs src := by
  induction cs generalizing ds src src' with
  | nil =>
      cases ds with
      | nil => rfl
      | cons d ds => cases hcs.1
  | cons c cs ih =>
      cases ds with
      | nil => cases hcs.1
      | cons d ds =>
          obtain rfl : c = d := hcs.head_eq
          rw [strcmp, strcmp, hct.head]
          cases hsrc : src 0 with
          | none => rfl
          | some x =>
              dsimp only
              by_cases hcx : c = x
              · subst hcx
                by_cases hc : c = 0
                · rw [if_pos hc, if_pos hc]
                · rw [if_neg hc, if_neg hc]
                  have hne : src 0 ≠ some 0 := fun heq => hc (Option.some.inj (hsrc.symm.trans heq))
                  rw [ih (hcs.of_cons hc) (hct.tail hne)]
              · rw [if_pos hcx, if_pos hcx]

theorem strcpy_alike {dst dst' : List UInt8} (hlen : dst.length = dst'.length) (hsrc : AlikeBytes src src') :
    Paired Alike (strcpy dst src) (strcpy dst' src') := by
  induction dst generalizing dst' src src' with
  | nil =>
      cases dst' with
      | cons d dst' => cases hlen
      | nil =>
          rw [strcpy, strcpy, hsrc.head]
          cases src 0 with
          | none => exact .error _
          | some c => exact .error _
  | cons d dst ih =>
      cases dst' with
      | nil => cases hlen
      | cons d' dst' =>
          have hlen' := Nat.succ.inj hlen
          rw [strcpy, strcpy, hsrc.head]
          cases hfirst : src 0 with
          | none => exact .error _
          | some c =>
              dsimp only
              by_cases hc : c = 0
              · rw [if_pos hc, if_pos hc]
                exact .ok (alike_zero hlen')
              · rw [if_neg hc, if_neg hc]
                have hne : src 0 ≠ some 0 := fun heq => hc (Option.some.inj (hfirst.symm.trans heq))
                exact (ih hlen' (hsrc.tail hne)).bind fun bytes bytes' hbytes => .ok (hbytes.cons c)

end Alike

/-! ### States that are the same up to such strings -/

inductive Block.Twin : Block → Block → Prop
  | head (l : Link) : Block.Twin (.head l) (.head l)
  | node (l : Link) {secret secret' : List UInt8} (h : Alike secret secret') :
      Block.Twin (.node l secret) (.node l secret')
  | string {bytes bytes' : List UInt8} (h : Alike bytes bytes') : Block.Twin (.string bytes) (.string bytes')

theorem Block.Twin.link {b b' : Block} (h : Block.Twin b b') : Linked.link b' = Linked.link b := by
  cases h with
  | head l => rfl
  | node l h => rfl
  | string h => rfl

theorem Block.Twin.setLink (l : Link) {b b' : Block} (h : Block.Twin b b') :
    Block.Twin (Linked.setLink l b) (Linked.setLink l b') := by
  cases h with
  | head l' => exact .head l
  | node l' h => exact .node l h
  | string h => exact .string h

/-- The same tasks, and heaps that differ only after the ends of strings. -/
def State.Twin (s s' : State) : Prop := ∃ h, s' = { s with heap := h } ∧ Heap.Related Block.Twin s.heap h

section Twin

variable {h h' : Heap Block} (hrel : Heap.Related Block.Twin h h')
include hrel

theorem loadNext_twin (a : Addr) : loadNext h' a = loadNext h a := by
  rw [loadNext, loadNext, hrel.next fun _ _ => Block.Twin.link]

theorem loadSecret_twin (a : Addr) : Paired Alike (loadSecret h a) (loadSecret h' a) := by
  have hcell := hrel.cells a
  rw [loadSecret, loadSecret]
  generalize h.cells a = x at hcell
  generalize h'.cells a = x' at hcell
  cases hcell with
  | none => exact .error _
  | some hb =>
      cases hb with
      | head l => exact .error _
      | node l hsecret => exact .ok hsecret
      | string hbytes => exact .error _

theorem loadString_twin (a : Addr) : Paired Alike (loadString h a) (loadString h' a) := by
  have hcell := hrel.cells a
  rw [loadString, loadString]
  generalize h.cells a = x at hcell
  generalize h'.cells a = x' at hcell
  cases hcell with
  | none => exact .error _
  | some hb =>
      cases hb with
      | head l => exact .error _
      | node l hsecret => exact .error _
      | string hbytes => exact .ok hbytes

theorem kfree_twin (a : Addr) : Paired (Heap.Related Block.Twin) (kfree a h) (kfree a h') := by
  rw [kfree, kfree]
  by_cases ha : a = 0
  · rw [if_pos ha, if_pos ha]
    exact .ok hrel
  rw [if_neg ha, if_neg ha]
  have hcell := hrel.cells a
  generalize h.cells a = x at hcell
  generalize h'.cells a = x' at hcell
  cases hcell with
  | none => exact .error _
  | some hb => exact .ok (hrel.free a)

theorem secretStolen_twin (list secret : Addr) : secretStolen h' list secret = secretStolen h list secret := by
  -- The searches compare the same strings.
  have hbody : ∀ pos, (do
      let theirs ← loadSecret h' pos
      let mine ← loadString h' secret
      return if ← strcmp theirs (ofBlock mine) then some () else none : Except Fault (Option Unit)) = (do
      let theirs ← loadSecret h pos
      let mine ← loadString h secret
      return if ← strcmp theirs (ofBlock mine) then some () else none) := by
    intro pos
    have htheirs := loadSecret_twin hrel pos
    generalize loadSecret h pos = x at htheirs
    generalize loadSecret h' pos = x' at htheirs
    cases htheirs with
    | error f => rfl
    | ok htheirs =>
        have hmine := loadString_twin hrel secret
        generalize loadString h secret = y at hmine
        generalize loadString h' secret = y' at hmine
        cases hmine with
        | error f => rfl
        | ok hmine =>
            rw [ok_bind, ok_bind, ok_bind, ok_bind, strcmp_alike htheirs hmine.2]
  rw [secretStolen, secretStolen, loadNext_twin hrel, hrel.top]
  congr 1
  funext first
  rw [hrel.walk (fun _ _ => Block.Twin.link) list .access .endless hbody h.top first]

theorem listEntries_twin (head : Addr) (fuel : Nat) (pos : Addr) :
    listEntries h' head fuel pos = listEntries h head fuel pos := by
  induction fuel generalizing pos with
  | zero => rfl
  | succ fuel ih =>
      rw [listEntries, listEntries, loadNext_twin hrel]
      apply if_congr Iff.rfl rfl
      congr 1
      funext n
      rw [ih]

/-- What is printed of an entry ends in both blocks, or in neither. -/
theorem printed_twin (pos : Addr) : (do
      let secret ← loadSecret h' pos
      if 0 ∈ secret then return (none : Option Unit) else .error .overread) = (do
      let secret ← loadSecret h pos
      if 0 ∈ secret then return (none : Option Unit) else .error .overread) := by
  have hsecret := loadSecret_twin hrel pos
  generalize loadSecret h pos = x at hsecret
  generalize loadSecret h' pos = x' at hsecret
  cases hsecret with
  | error f => rfl
  | ok hsecret =>
      rw [ok_bind, ok_bind]
      exact if_congr hsecret.zero_mem rfl rfl

theorem copySecrets_twin (room : Nat → Nat) (size listLen counter i : Nat) (ptr : Addr) (out out' : List UserWrite) :
    Paired (fun x x' => x'.1 = x.1) (copySecrets h room size listLen counter i ptr out)
      (copySecrets h' room size listLen counter i ptr out') := by
  induction counter generalizing i ptr out out' with
  | zero =>
      rw [copySecrets, copySecrets]
      split
      · exact .ok rfl
      · exact .ok rfl
  | succ counter ih =>
      rw [copySecrets, copySecrets]
      split
      · apply (loadSecret_twin hrel ptr).bind
        intro secret secret' hsecret
        dsimp only
        split
        · exact .ok rfl
        · rw [loadNext_twin hrel]
          cases loadNext h ptr with
          | error f => exact .error f
          | ok n => exact ih (i + 1) n _ _
      · exact .ok rfl

theorem freeSecrets_twin (head : Addr) (fuel : Nat) (pos : Addr) :
    Paired (Heap.Related Block.Twin) (freeSecrets head fuel pos h) (freeSecrets head fuel pos h') := by
  induction fuel generalizing pos h h' with
  | zero =>
      rw [freeSecrets, freeSecrets]
      by_cases hpos : pos = head
      · rw [if_pos hpos, if_pos hpos]
        exact .ok hrel
      · rw [if_neg hpos, if_neg hpos]
        exact .error _
  | succ fuel ih =>
      rw [freeSecrets, freeSecrets, loadNext_twin hrel]
      by_cases hpos : pos = head
      · rw [if_pos hpos, if_pos hpos]
        exact .ok hrel
      rw [if_neg hpos, if_neg hpos]
      cases loadNext h pos with
      | error f => exact .error f
      | ok n =>
          rw [ok_bind, ok_bind]
          have hdel := hrel.listDel (fun _ _ => Block.Twin.link) (fun l _ _ => Block.Twin.setLink l) pos
          generalize h.listDel pos = x at hdel
          generalize h'.listDel pos = x' at hdel
          cases hdel with
          | none => exact .error _
          | some hrel₁ => exact (kfree_twin hrel₁ pos).bind fun h₂ h₂' hrel₂ => ih hrel₂ n

end Twin

/-! ### Calls that differ in the memory that `kmalloc` yields -/

inductive Call.Twin : Call → Call → Prop
  | same (c : Call) : Call.Twin c c
  | getWand (power : Int32) (secret : Option SecretReads) (mem : Addr) (junk junk' : Nat → UInt8) :
      Call.Twin (.getWand power secret mem junk) (.getWand power secret mem junk')
  | legilimens (pid : Int32) (mem : Addr) (junk junk' : Nat → UInt8) :
      Call.Twin (.legilimens pid mem junk) (.legilimens pid mem junk')

structure Event.Twin (e e' : Event) : Prop where
  current : e'.current = e.current
  call : e.call.Twin e'.call

/-- The same number is returned, in states that are twins. -/
def SameAnswer (x x' : Int × State) : Prop := x'.1 = x.1 ∧ x.2.Twin x'.2

section Calls

variable {s : State} {h : Heap Block} (hrel : Heap.Related Block.Twin s.heap h)
include hrel

theorem sysMagicGetWand_twin (p : TaskId) (power : Int32) (secret : Option SecretReads) (mem : Addr)
    (junk junk' : Nat → UInt8) : Paired SameAnswer (sysMagicGetWand p power secret mem junk s)
      (sysMagicGetWand p power secret mem junk' { s with heap := h }) := by
  unfold sysMagicGetWand
  dsimp only
  split
  · exact .ok ⟨rfl, h, rfl, hrel⟩
  cases secret with
  | none => exact .ok ⟨rfl, h, rfl, hrel⟩
  | some r =>
      dsimp only
      split
      · exact .ok ⟨rfl, h, rfl, hrel⟩
      have hlen : ((List.range (secretLen r.scan)).map junk).length =
          ((List.range (secretLen r.scan)).map junk').length := by
        rw [List.length_map, List.length_map]
      split
      · rename_i hmem
        subst hmem
        exact .ok ⟨rfl, h, rfl, hrel⟩
      rename_i hmem
      apply (strcpy_alike hlen (AlikeBytes.refl _)).bind
      intro bytes bytes' hbytes
      dsimp only [State.modTask]
      rw [strcmp_alike hbytes (AlikeBytes.refl _), Heap.modify_alloc hmem, Heap.modify_alloc hmem]
      have halloc := hrel.alloc (Block.Twin.string hbytes) mem
      refine Paired.bind (R := (· = ·)) ?_ ?_
      · cases strcmp bytes (ofUser r.compare) with
        | error f => exact .error f
        | ok same => exact .ok rfl
      · rintro same _ rfl
        split
        · exact .ok ⟨rfl, _, rfl, halloc⟩
        · exact (kfree_twin halloc mem).bind fun h₁ h₁' hrel₁ => .ok ⟨rfl, _, rfl, hrel₁⟩

theorem sysMagicAttack_twin (attacker : TaskId) (pid : Int32) :
    Paired SameAnswer (sysMagicAttack attacker pid s) (sysMagicAttack attacker pid { s with heap := h }) := by
  have hfind : findTaskByPid { s with heap := h } pid = findTaskByPid s pid := rfl
  unfold sysMagicAttack
  rw [hfind]
  cases findTaskByPid s pid with
  | none => exact .ok ⟨rfl, h, rfl, hrel⟩
  | some target =>
      dsimp only
      split
      · exact .ok ⟨rfl, h, rfl, hrel⟩
      split
      · exact .ok ⟨rfl, h, rfl, hrel⟩
      split
      · exact .ok ⟨rfl, h, rfl, hrel⟩
      rw [secretStolen_twin hrel]
      cases secretStolen s.heap (s.task target).secretsPtr (s.task attacker).mySecret with
      | error f => exact .error f
      | ok stolen =>
          rw [ok_bind, ok_bind]
          split
          · exact .ok ⟨rfl, h, rfl, hrel⟩
          · exact .ok ⟨rfl, h, rfl, hrel⟩

theorem sysMagicLegilimens_twin (attacker : TaskId) (pid : Int32) (mem : Addr) (junk junk' : Nat → UInt8) :
    Paired SameAnswer (sysMagicLegilimens attacker pid mem junk s)
      (sysMagicLegilimens attacker pid mem junk' { s with heap := h }) := by
  have hfind : findTaskByPid { s with heap := h } pid = findTaskByPid s pid := rfl
  unfold sysMagicLegilimens
  rw [hfind]
  cases findTaskByPid s pid with
  | none => exact .ok ⟨rfl, h, rfl, hrel⟩
  | some target =>
      dsimp only
      split
      · exact .ok ⟨rfl, h, rfl, hrel⟩
      split
      · exact .ok ⟨rfl, h, rfl, hrel⟩
      rw [secretStolen_twin hrel]
      cases secretStolen s.heap (s.task attacker).secretsPtr (s.task target).mySecret with
      | error f => exact .error f
      | ok stolen =>
          rw [ok_bind, ok_bind]
          split
          · exact .ok ⟨rfl, h, rfl, hrel⟩
          split
          · exact .ok ⟨rfl, h, rfl, hrel⟩
          have hlen : ((List.range secretMaxsize).map junk).length = ((List.range secretMaxsize).map junk').length := by
            rw [List.length_map, List.length_map]
          apply (loadString_twin hrel _).bind
          intro mine mine' hmine
          apply (strcpy_alike hlen hmine.2).bind
          intro secret secret' hsecret
          have hadd := (hrel.alloc (.node ⟨0, 0⟩ hsecret) mem).listAddTail (fun _ _ => Block.Twin.link)
            (fun l _ _ => Block.Twin.setLink l) mem (s.task attacker).secretsPtr
          generalize (s.heap.alloc mem (.node ⟨0, 0⟩ secret)).listAddTail mem (s.task attacker).secretsPtr = x at hadd
          generalize (h.alloc mem (.node ⟨0, 0⟩ secret')).listAddTail mem (s.task attacker).secretsPtr = x' at hadd
          cases hadd with
          | none => exact .error _
          | some hrel₁ => exact .ok ⟨rfl, _, rfl, hrel₁⟩

theorem sysMagicListSecrets_twin (p : TaskId) (array : Option (Nat → Nat)) (size : Nat) :
    Paired (fun x x' => x'.1 = x.1) (sysMagicListSecrets p array size s)
      (sysMagicListSecrets p array size { s with heap := h }) := by
  unfold sysMagicListSecrets
  dsimp only
  split
  · exact .ok rfl
  rw [loadNext_twin hrel, hrel.top]
  cases loadNext s.heap (s.task p).secretsPtr with
  | error f => exact .error f
  | ok first =>
      rw [ok_bind, ok_bind, hrel.walk (fun _ _ => Block.Twin.link) _ .access .endless (printed_twin hrel),
        listEntries_twin hrel]
      refine Paired.bind (R := fun _ _ => True) ?_ fun _ _ _ => ?_
      · generalize s.heap.walk (s.task p).secretsPtr _ _ _ _ _ = x
        cases x with
        | error f => exact .error f
        | ok found => exact .ok trivial
      cases listEntries s.heap (s.task p).secretsPtr s.heap.top first with
      | error f => exact .error f
      | ok entries =>
          rw [ok_bind, ok_bind]
          split
          · exact .ok rfl
          cases array with
          | none => exact .ok rfl
          | some room =>
              apply (copySecrets_twin hrel room size entries.length entries.length 0 first [] []).bind
              rintro ⟨_, out⟩ ⟨stolen, out'⟩ rfl
              cases stolen with
              | none => exact .ok rfl
              | some stolen => exact .ok rfl

theorem doExit_twin (p : TaskId) : Paired State.Twin (doExit p s) (doExit p { s with heap := h }) := by
  unfold doExit
  dsimp only
  apply (kfree_twin hrel _).bind
  intro h₀ h₀' hrel₀
  rw [loadNext_twin hrel₀, hrel₀.top]
  cases loadNext h₀ (s.task p).secretsPtr with
  | error f => exact .error f
  | ok first =>
      rw [ok_bind, ok_bind]
      apply (freeSecrets_twin hrel₀ _ _ first).bind
      intro h₁ h₁' hrel₁
      apply (kfree_twin hrel₁ _).bind
      intro h₂ h₂' hrel₂
      split
      · exact .error _
      split
      · exact .error _
      · exact .ok ⟨h₂', rfl, hrel₂⟩

theorem doFork_twin (parent child : TaskId) (pid : Int32) (mem : Addr) :
    (doFork parent child pid mem s).2.Twin (doFork parent child pid mem { s with heap := h }).2 := by
  by_cases hmem : mem = 0
  · subst hmem
    exact ⟨h, rfl, hrel⟩
  · rw [doFork_child hmem, doFork_child hmem]
    exact ⟨_, rfl, hrel.alloc (.head ⟨mem, mem⟩) mem⟩

end Calls

theorem step_twin {s s' : State} {e e' : Event} (htwin : s.Twin s') (he : e.Twin e') :
    Paired State.Twin (step s e) (step s' e') := by
  obtain ⟨h, rfl, hrel⟩ := htwin
  obtain ⟨p, call⟩ := e
  obtain ⟨p', call'⟩ := e'
  obtain ⟨rfl, hcall⟩ := he
  dsimp only at hcall ⊢
  have hanswer : ∀ {x x' : Except Fault (Int × State)}, Paired SameAnswer x x' →
      Paired State.Twin (do return (← x).2) (do return (← x').2) := fun hx => hx.bind fun _ _ h => .ok h.2
  cases hcall with
  | getWand power secret mem junk junk' => exact hanswer (sysMagicGetWand_twin hrel _ power secret mem junk junk')
  | legilimens pid mem junk junk' => exact hanswer (sysMagicLegilimens_twin hrel _ pid mem junk junk')
  | same =>
      cases call with
      | fork child pid mem => exact .ok (doFork_twin hrel _ child pid mem)
      | getWand power secret mem junk => exact hanswer (sysMagicGetWand_twin hrel _ power secret mem junk junk)
      | attack pid => exact hanswer (sysMagicAttack_twin hrel _ pid)
      | legilimens pid mem junk => exact hanswer (sysMagicLegilimens_twin hrel _ pid mem junk junk)
      | listSecrets array size =>
          exact (sysMagicListSecrets_twin hrel _ array size).bind fun _ _ _ => .ok ⟨h, rfl, hrel⟩
      | magicClock seconds jiffies =>
          refine .ok ?_
          unfold sysMagicClock
          dsimp only
          split
          · exact ⟨h, rfl, hrel⟩
          · exact ⟨h, rfl, hrel⟩
      | exit => exact doExit_twin hrel _
      | release q => exact .ok ⟨h, rfl, hrel⟩

/-- Runs of the same calls from the same state end in twins. -/
theorem run_twin {s t t' : State} {es es' : List Event} (hrun : machine.Run s es t) (hrun' : machine.Run s es' t')
    (hes : List.Forall₂ Event.Twin es es') : t.Twin t' := by
  have hrefl : s.Twin s := by
    refine ⟨s.heap, rfl, rfl, fun a => ?_⟩
    cases s.heap.cells a with
    | none => exact .none
    | some b =>
        refine .some ?_
        cases b with
        | head l => exact .head l
        | node l secret => exact .node l ⟨rfl, .refl _⟩
        | string bytes => exact .string ⟨rfl, .refl _⟩
  exact hrun.paired (R := State.Twin) (fun _ _ _ _ hs he _ => step_twin hs he) hrun' hes hrefl

/-! ### What is copied to the user -/

theorem path_of_listEntries {h : Heap Block} {head c pos : Addr} {fuel : Nat} {xs : List Addr}
    (hpos : h.next c = some pos) (hlist : listEntries h head fuel pos = .ok xs) :
    Heap.Path h.next c xs head ∧ head ∉ xs := by
  induction fuel generalizing c pos xs with
  | zero =>
      rw [listEntries] at hlist
      split at hlist
      · rename_i heq
        cases hlist
        exact ⟨heq ▸ hpos, List.not_mem_nil⟩
      · cases hlist
  | succ fuel ih =>
      rw [listEntries] at hlist
      split at hlist
      · rename_i heq
        cases hlist
        exact ⟨heq ▸ hpos, List.not_mem_nil⟩
      rename_i hne
      obtain ⟨n, hn, hlist⟩ := bind_eq_ok.1 hlist
      obtain ⟨ys, hys, heq⟩ := bind_eq_ok.1 hlist
      cases heq
      obtain ⟨hpath, hhead⟩ := ih (loadNext_ok hn) hys
      refine ⟨⟨hpos, hpath⟩, fun hmem => ?_⟩
      rcases List.mem_cons.1 hmem with heq | hmem
      · exact hne heq.symm
      · exact hhead hmem

/-- Of an entry that the call comes to, no byte is stored that lies behind the NUL of its secret. -/
def Covered (s : State) (p : TaskId) (mem : Space) (secrets : UInt32) (size : Nat) : Prop :=
  secrets ≠ 0 → ∀ xs i a, Heap.Path s.heap.next (s.task p).secretsPtr xs (s.task p).secretsPtr →
    (s.task p).secretsPtr ∉ xs → xs[i]? = some a → i < size → (∀ j < i, EntryWritable mem secrets j) →
      entryRoom mem secrets i ≤ (text (secretAt s.heap a)).length + 1

section Covered

variable {h h' : Heap Block} {mem : Space} {secrets : UInt32}

/-- `copy_to_user` stores the same of secrets that are alike, if there is no room for more than the string. -/
theorem copyToUser_alike {i : Nat} {secret secret' : List UInt8} (hlength : secret.length = secretMaxsize)
    (halike : Alike secret secret') (hroom : entryRoom mem secrets i ≤ (text secret).length + 1) :
    copyToUser mem (entryAddr secrets i) secret' = copyToUser mem (entryAddr secrets i) secret := by
  apply Prod.ext
  · exact copyToUser_left _ _ _ _
  · rw [copyToUser_stores (halike.1.symm.trans hlength), copyToUser_stores hlength, halike.take_eq hroom]

/-- The copying loop, in the two heaps. -/
theorem copySecretsAt_twin (hrel : Heap.Related Block.Twin h h') (hterm : Terminated h) {head c ptr : Addr}
    {zs : List Addr} {size listLen i : Nat} (hpath : Heap.Path h.next c zs head) (hptr : h.next c = some ptr)
    (hcovered : ∀ j a, zs[j]? = some a → i + j < size →
      (∀ k, i ≤ k → k < i + j → EntryWritable mem secrets k) →
      entryRoom mem secrets (i + j) ≤ (text (secretAt h a)).length + 1) :
    copySecretsAt h' mem secrets size listLen zs.length i ptr =
      copySecretsAt h mem secrets size listLen zs.length i ptr := by
  induction zs generalizing c ptr i with
  | nil => rfl
  | cons z zs ih =>
      obtain ⟨hnext, hrest⟩ := hpath
      obtain rfl : z = ptr := Option.some.inj (hnext.symm.trans hptr)
      rw [List.length_cons, copySecretsAt, copySecretsAt]
      split
      · rename_i hlt
        have hload := loadSecret_twin hrel z
        cases hfirst : loadSecret h z with
        | error f =>
            rw [hfirst] at hload
            generalize loadSecret h' z = x' at hload
            cases hload
            rfl
        | ok secret =>
            rw [hfirst] at hload
            generalize loadSecret h' z = x' at hload
            cases hload with
            | @ok _ secret' halike =>
                obtain ⟨l, hcell⟩ := loadSecret_ok hfirst
                have hsecret : secretAt h z = secret := by rw [secretAt, hcell]
                have hnode : h.contents Block.strip z = some (.node ⟨0, 0⟩ secret) := by
                  rw [Heap.contents, hcell]
                  rfl
                have hroom := hcovered 0 z rfl hlt fun k hle hk => absurd hk (Nat.not_lt.2 hle)
                rw [hsecret, Nat.add_zero] at hroom
                rw [ok_bind, ok_bind, copyToUser_alike (hterm z _ hnode).2 halike hroom, loadNext_twin hrel]
                dsimp only
                split
                · rfl
                rename_i hcomplete
                have hentry : EntryWritable mem secrets i := copyToUser_eq_zero.1 (not_not.1 hcomplete)
                cases hn : loadNext h z with
                | error f => rfl
                | ok n =>
                    rw [ok_bind, ok_bind, ih hrest (loadNext_ok hn) fun j a hj hsize hall => ?_]
                    have hidx : i + (j + 1) = i + 1 + j := by omega
                    rw [← hidx] at hsize hall ⊢
                    refine hcovered (j + 1) a hj hsize fun k hle hk => ?_
                    by_cases hk' : k = i
                    · exact hk' ▸ hentry
                    · exact hall k (by omega) hk
      · rfl

end Covered

/-- Two runs of the same calls, with the same answers of `kmalloc` but for the bytes in the memory it
yields. A listing that stores no byte from behind a secret stores the same in both, and returns the same. -/
theorem listing_reveals_nothing {s t t' : State} {es es' : List Event} (hinit : Pristine s)
    (hrun : machine.Run s es t) (hrun' : machine.Run s es' t') (hes : List.Forall₂ Event.Twin es es')
    (p : TaskId) (mem : Space) (secrets size : UInt32) (hcovered : Covered t p mem secrets size.toNat) :
    sysMagicListSecretsAt p mem secrets size t' = sysMagicListSecretsAt p mem secrets size t := by
  have hterm := terminated_of_reachable ⟨s, es, hinit, hrun⟩
  obtain ⟨h, rfl, hrel⟩ := run_twin hrun hrun' hes
  unfold sysMagicListSecretsAt
  dsimp only
  split
  · rfl
  rw [loadNext_twin hrel, hrel.top]
  cases hfirst : loadNext t.heap (t.task p).secretsPtr with
  | error f => rfl
  | ok first =>
      rw [ok_bind, ok_bind, hrel.walk (fun _ _ => Block.Twin.link) _ .access .endless (printed_twin hrel),
        listEntries_twin hrel]
      cases t.heap.walk (t.task p).secretsPtr _ _ _ _ _ with
      | error f => rfl
      | ok found =>
          cases hxs : listEntries t.heap (t.task p).secretsPtr t.heap.top first with
          | error f => rfl
          | ok xs =>
              rw [ok_bind, ok_bind, ok_bind, ok_bind]
              split
              · rfl
              split
              · rfl
              rename_i hnull
              obtain ⟨hpath, hhead⟩ := path_of_listEntries (loadNext_ok hfirst) hxs
              refine copySecretsAt_twin hrel hterm hpath (loadNext_ok hfirst) fun j a hj hsize hall => ?_
              rw [Nat.zero_add] at hsize hall ⊢
              exact hcovered hnull xs j a hpath hhead hj hsize fun k hk => hall k (Nat.zero_le k) hk

/-- The second task steals the first one's secret, and all memory holds the byte `b` before it is written. -/
def lootEvents (secret : SecretReads) (b : UInt8) : List Event :=
  [⟨1, .fork 2 2 2⟩, ⟨1, .getWand 10 (some secret) 3 fun _ => b⟩,
    ⟨2, .getWand 5 (some (oneLetter 98)) 4 fun _ => b⟩,
    ⟨2, .legilimens 1 5 fun _ => b⟩]

def looted (secret : SecretReads) (b : UInt8) : State := machine.after boot (lootEvents secret b)

theorem lootEvents_twin (secret : SecretReads) (b b' : UInt8) :
    List.Forall₂ Event.Twin (lootEvents secret b) (lootEvents secret b') :=
  .cons ⟨rfl, .same _⟩ (.cons ⟨rfl, .getWand _ _ _ _ _⟩ (.cons ⟨rfl, .getWand _ _ _ _ _⟩
    (.cons ⟨rfl, .legilimens _ _ _ _⟩ .nil)))

/-- A secret of 15 letters, and an array that begins 16 bytes before the end of the page: the call fails, and the
thief is shown the string and its NUL, whatever was in the memory. -/
theorem listing_reveals_nothing_fifteen :
    machine.Run boot (lootEvents (letters 15) 7) (looted (letters 15) 7) ∧
      machine.Run boot (lootEvents (letters 15) 8) (looted (letters 15) 8) ∧
      sysMagicListSecretsAt 2 userPage 0x08049FF0 2 (looted (letters 15) 8) =
        sysMagicListSecretsAt 2 userPage 0x08049FF0 2 (looted (letters 15) 7) := by
  have hrun : machine.Run boot (lootEvents (letters 15) 7) (looted (letters 15) 7) :=
    Machine.run_after (by decide +kernel)
  have hrun' : machine.Run boot (lootEvents (letters 15) 8) (looted (letters 15) 8) :=
    Machine.run_after (by decide +kernel)
  have hhead : ((looted (letters 15) 7).task 2).secretsPtr = 2 := by decide +kernel
  have hfirst : (looted (letters 15) 7).heap.next 2 = some 5 := by decide +kernel
  have hlast : (looted (letters 15) 7).heap.next 5 = some 2 := by decide +kernel
  have hroom : entryRoom userPage 0x08049FF0 0 ≤ (text (secretAt (looted (letters 15) 7).heap 5)).length + 1 := by
    decide +kernel
  refine ⟨hrun, hrun', listing_reveals_nothing boot_pristine hrun hrun' (lootEvents_twin _ _ _) 2 _ _ 2 ?_⟩
  generalize looted (letters 15) 7 = t at hhead hfirst hlast hroom
  rintro - xs i a hpath hnot hi - -
  rw [hhead] at hpath hnot
  cases xs with
  | nil => cases hi
  | cons x xs =>
      obtain ⟨hx, hpath⟩ := hpath
      obtain rfl : x = 5 := Option.some.inj (hx.symm.trans hfirst)
      cases xs with
      | nil =>
          cases i with
          | zero =>
              obtain rfl : 5 = a := Option.some.inj hi
              exact hroom
          | succ i => cases hi
      | cons y ys =>
          obtain rfl : y = 2 := Option.some.inj (hpath.1.symm.trans hlast)
          exact absurd (List.mem_cons_of_mem _ List.mem_cons_self) hnot

/-- A secret of one letter leaves 30 bytes of its entry as `kmalloc` found them, and the thief is shown
these too. -/
theorem looted_listing_differs :
    Pristine boot ∧ machine.Run boot (lootEvents (oneLetter 97) 7) (looted (oneLetter 97) 7) ∧
      machine.Run boot (lootEvents (oneLetter 97) 8) (looted (oneLetter 97) 8) ∧
      List.Forall₂ Event.Twin (lootEvents (oneLetter 97) 7) (lootEvents (oneLetter 97) 8) ∧
      sysMagicListSecretsAt 2 userPage 0x08049000 1 (looted (oneLetter 97) 7) =
        .ok (some 0, stores 0x08049000 (97 :: 0 :: List.replicate 30 7)) ∧
      sysMagicListSecretsAt 2 userPage 0x08049000 1 (looted (oneLetter 97) 8) =
        .ok (some 0, stores 0x08049000 (97 :: 0 :: List.replicate 30 8)) :=
  ⟨boot_pristine, Machine.run_after (by decide +kernel), Machine.run_after (by decide +kernel),
    lootEvents_twin _ _ _, by decide +kernel, by decide +kernel⟩

end MagicKernel.Wand
