import Fip.Bfc.Labels

/-!
# Running the code of a body

Each construct is put together from the pieces of its code: what a primitive
realizes, composed to a sequence, a choice or a loop.
-/

namespace Fip.Bfc

open Machine

/-- The words that the compiler needs are five different ones. -/
def Refs.Distinct (refs : Refs) : Prop :=
  [refs.lit, refs.zbra, refs.bra, refs.dofor, refs.push].Nodup

section

variable {whole x target : Code} {refs : Refs} {act : ℕ → Stacks → Option Stacks} {l : ℕ}

theorem thread_bra (hdistinct : refs.Distinct) (hfind : whole.find l = some target)
    (st : Stacks) :
    thread whole refs act (.jsr refs.bra :: .dwLabel l :: x, st) = .inl (target, st) := by
  simp only [Refs.Distinct, List.nodup_cons, List.mem_cons, not_or] at hdistinct
  obtain ⟨⟨_, hlit, _⟩, ⟨hzbra, _⟩, _⟩ := hdistinct
  rw [thread, jsr, if_neg (Ne.symm hlit), if_neg (Ne.symm hzbra), if_pos rfl, bra, jump,
    hfind]
  rfl

theorem jsr_zbra (hdistinct : refs.Distinct) (st : Stacks) :
    jsr whole refs act refs.zbra x st = zbra whole x st := by
  simp only [Refs.Distinct, List.nodup_cons, List.mem_cons, not_or] at hdistinct
  obtain ⟨⟨hlit, _⟩, _⟩ := hdistinct
  rw [jsr, if_neg (Ne.symm hlit), if_pos rfl]

theorem realizes_flag (act : ℕ → Stacks → Option Stacks) (hdistinct : refs.Distinct)
    (hfind : whole.find l = some target) :
    Realizes (thread whole refs act) (Prod.mk (.jsr refs.zbra :: .dwLabel l :: x))
      (Sum.elim (Prod.mk x) (Prod.mk target)) (Yields flag) := by
  apply Realizes.single
  rintro ⟨_ | ⟨d, data⟩, ret⟩
  · rw [thread, jsr_zbra hdistinct]
    rfl
  · rw [thread, jsr_zbra hdistinct, zbra, flag, jump, hfind, skip]
    by_cases hd : d = 0
    · rw [if_pos hd, if_pos hd]
      rfl
    · rw [if_neg hd, if_neg hd]
      rfl

theorem realizes_untilFlag (act : ℕ → Stacks → Option Stacks) (hdistinct : refs.Distinct)
    (hfind : whole.find l = some target) :
    Realizes (thread whole refs act) (Prod.mk (.jsr refs.zbra :: .dwLabel l :: x))
      (Sum.elim (Prod.mk target) (Prod.mk x)) (Yields untilFlag) := by
  apply Realizes.single
  rintro ⟨_ | ⟨d, data⟩, ret⟩
  · rw [thread, jsr_zbra hdistinct]
    rfl
  · rw [thread, jsr_zbra hdistinct, zbra, untilFlag, flag, jump, hfind, skip]
    by_cases hd : d = 0
    · rw [if_pos hd, if_pos hd]
      rfl
    · rw [if_neg hd, if_neg hd]
      rfl

theorem realizes_counter (act : ℕ → Stacks → Option Stacks) (hdistinct : refs.Distinct)
    (hfind : whole.find l = some target) :
    Realizes (thread whole refs act) (Prod.mk (.jsr refs.dofor :: .dwLabel l :: x))
      (Sum.elim (Prod.mk x) (Prod.mk target)) (Yields counter) := by
  have hjsr : ∀ st, jsr whole refs act refs.dofor (.dwLabel l :: x) st =
      dofor whole (.dwLabel l :: x) st := by
    intro st
    simp only [Refs.Distinct, List.nodup_cons, List.mem_cons, not_or] at hdistinct
    obtain ⟨⟨_, _, hlit, _⟩, ⟨_, hzbra, _⟩, ⟨hbra, _⟩, _⟩ := hdistinct
    rw [jsr, if_neg (Ne.symm hlit), if_neg (Ne.symm hzbra), if_neg (Ne.symm hbra),
      if_pos rfl]
  apply Realizes.single
  rintro ⟨data, _ | ⟨c, ret⟩⟩
  · rw [thread, hjsr]
    rfl
  · rw [thread, hjsr, dofor, counter, jump, hfind, skip]
    by_cases hc : c = 0
    · rw [if_pos hc, if_pos hc]
      rfl
    · rw [if_neg hc, if_neg hc]
      rfl

theorem realizes_literal (n : Int) :
    Realizes (thread whole refs act) (Prod.mk (.jsr refs.lit :: .dw n :: x)) (Prod.mk x)
      (Yields (literal n)) := by
  apply Realizes.single
  intro st
  rw [thread, jsr, if_pos rfl]
  rfl

theorem realizes_call {ref : ℕ}
    (href : ref ∉ [refs.lit, refs.zbra, refs.bra, refs.dofor]) :
    Realizes (thread whole refs act) (Prod.mk (.jsr ref :: x)) (Prod.mk x)
      (Yields (call refs act ref)) := by
  simp only [List.mem_cons, not_or] at href
  obtain ⟨hlit, hzbra, hbra, hdofor, _⟩ := href
  apply Realizes.single
  intro st
  rw [thread, jsr, if_neg hlit, if_neg hzbra, if_neg hbra, if_neg hdofor]
  cases call refs act ref st <;> rfl

theorem realizes_push (hdistinct : refs.Distinct) :
    Realizes (thread whole refs act) (Prod.mk (.jsr refs.push :: x)) (Prod.mk x)
      (Yields push) := by
  have href : refs.push ∉ [refs.lit, refs.zbra, refs.bra, refs.dofor] := by
    simp only [Refs.Distinct, List.nodup_cons, List.mem_cons, not_or] at hdistinct
    simp only [List.mem_cons, not_or]
    obtain ⟨⟨_, _, _, hlit, _⟩, ⟨_, _, hzbra, _⟩, ⟨_, hbra, _⟩, ⟨hdofor, _⟩, _⟩ := hdistinct
    exact ⟨Ne.symm hlit, Ne.symm hzbra, Ne.symm hbra, Ne.symm hdofor, List.not_mem_nil⟩
  have hpush : call refs act refs.push = push := by rw [call, if_pos rfl]
  rw [← hpush]
  exact realizes_call href

end

/-- The code of a body realizes its reading, with the counters on the return
stack. -/
theorem realizes_code {find : ℕ → String → Option Entry} {refs : Refs} {l : ℕ}
    {words : List String} {body : Body} (hspells : Spells find refs l words body)
    (hdistinct : refs.Distinct) (act : ℕ → Stacks → Option Stacks) {whole next : Code}
    (hlinked : Linked whole (body.code refs l) next) :
    Realizes (thread whole refs act) (Prod.mk (body.code refs l ++ next)) (Prod.mk next)
      (body.RunsCounted (call refs act)) := by
  induction hspells generalizing next with
  | empty => exact Realizes.skip _
  | lit _ _ _ => exact realizes_literal _
  | call _ _ href => exact realizes_call href
  | seq _ _ ihfirst ihsecond =>
      have hfirst := ihfirst hlinked.left
      have hsecond := ihsecond hlinked.right
      rw [Body.code, List.append_assoc]
      exact hfirst.seq hsecond
  | @ifThen l _ _ _ ih =>
      rw [Body.code] at hlinked
      have hlinkedYes := hlinked.tail.tail
      have hyes := ih hlinkedYes.left
      have hend := hlinkedYes.right.head
      rw [Body.code, List.cons_append, List.cons_append, List.append_assoc]
      have hchoice := (realizes_flag act hdistinct hend).seq
        (hyes.join (Realizes.skip (Prod.mk (.label l :: ([] ++ next)))))
      exact hchoice.behind fun _ => rfl
  | @ifElse l _ _ a b _ _ ihyes ihno =>
      rw [Body.code] at hlinked
      have hlinkedElse := hlinked.tail.tail.right.tail.tail
      have hend := hlinkedElse.tail.right.head
      have hyes := (ihyes hlinked.tail.tail.left).behind (thread_bra hdistinct hend)
      have hno : Realizes (thread whole refs act)
          (Prod.mk (.label l :: (b.code refs (l + 1 + a.labels + 1) ++
            [.label (l + 1 + a.labels)] ++ next)))
          (Prod.mk (.label (l + 1 + a.labels) :: ([] ++ next)))
          (b.RunsCounted (call refs act)) := by
        rw [List.append_assoc]
        exact (ihno hlinkedElse.tail.left).before fun _ => rfl
      have hchoice := (realizes_flag act hdistinct hlinkedElse.head).seq
        (hyes.join hno)
      rw [Body.code, List.cons_append, List.cons_append, List.append_assoc]
      exact hchoice.behind fun _ => rfl
  | @beginUntil l _ a _ ih =>
      rw [Body.code] at hlinked
      have hbody := ih hlinked.tail.left
      have hstart := hlinked.head
      rw [List.append_assoc] at hstart
      have htest := realizes_untilFlag (x := next) act hdistinct hstart
      rw [Body.code, List.cons_append, List.append_assoc]
      exact (hbody.seq htest).loop fun _ => rfl
  | @beginAgain l _ a _ ih =>
      rw [Body.code] at hlinked
      have hbody := ih hlinked.tail.left
      have hstart := hlinked.head
      rw [List.append_assoc] at hstart
      have hjump : Realizes (thread whole refs act)
          (Prod.mk ([.jsr refs.bra, .dwLabel l] ++ next))
          (Sum.elim (Prod.mk (.label l :: (a.code refs (l + 1) ++
            ([.jsr refs.bra, .dwLabel l] ++ next)))) (Prod.mk next))
          (Yields (some ∘ Sum.inl)) :=
        Realizes.single fun st => thread_bra hdistinct hstart st
      rw [Body.code, List.cons_append, List.append_assoc]
      exact (hbody.seq hjump).loop fun _ => rfl
  | @beginWhile l _ _ a b _ _ ihcondition ihbody =>
      rw [Body.code] at hlinked
      have hlinkedBody := hlinked.tail.right.tail.tail
      have hcondition := ihcondition hlinked.tail.left
      have hstart := hlinked.head
      have hend := hlinkedBody.right.tail.tail.head
      have hbody := (ihbody hlinkedBody.left).behind (thread_bra hdistinct hstart)
      simp only [List.append_assoc, List.cons_append, List.nil_append] at hcondition hbody hend
      have hround := hcondition.seq ((realizes_flag act hdistinct hend).seq
        (hbody.onLeft _))
      simp only [Body.code, List.append_assoc, List.cons_append, List.nil_append]
      exact (hround.loop fun _ => rfl).behind fun _ => rfl
  | @forNext l _ a _ ih =>
      rw [Body.code] at hlinked
      have hlinkedBody := hlinked.tail.tail.tail.tail
      have hstart := hlinked.tail.head
      have hend := hlinkedBody.right.tail.tail.head
      have hbody := (ih hlinkedBody.left).behind (thread_bra hdistinct hstart)
      simp only [List.append_assoc, List.cons_append, List.nil_append] at hbody hend
      have hround := (realizes_counter act hdistinct hend).seq (hbody.onLeft _)
      simp only [Body.code, List.append_assoc, List.cons_append, List.nil_append]
      have hloop := (hround.loop fun _ => rfl).behind fun _ => rfl
      exact (realizes_push hdistinct).seq hloop

/-- The definition that ends behind the body comes to its end exactly as the
reading says. -/
theorem halts_iff_runsCounted {find : ℕ → String → Option Entry} {refs : Refs} {l : ℕ}
    {words : List String} {body : Body} (hspells : Spells find refs l words body)
    (hdistinct : refs.Distinct) (act : ℕ → Stacks → Option Stacks) (st st' : Stacks) :
    Halts (body.code refs l ++ [.rts]) refs act st st' ↔
      body.RunsCounted (call refs act) st st' := by
  have hcode := realizes_code hspells hdistinct act (body.linked refs l [.rts])
  constructor
  · rintro ⟨fuel, hrun⟩
    obtain ⟨last, left, _, hruns, hrest⟩ := hcode.back fuel st st' hrun
    cases left with
    | zero => cases hrest
    | succ left =>
        have hlast : last = st' := Option.some.inj (Option.some.inj hrest)
        rw [← hlast]
        exact hruns
  · intro hruns
    have hend : Machine.run (thread (body.code refs l ++ [.rts]) refs act) 1 ([.rts], st') =
        some (some st') := rfl
    exact (hcode.forth st st' hruns).run hend

end Fip.Bfc
