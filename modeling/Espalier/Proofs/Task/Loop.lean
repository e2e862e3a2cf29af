import Espalier.Task

/-!
# Plain loops over a computation

A plain loop steps a computation until a step fails or is the last one. `Loops` tells the states
it steps in, in order, and how it ends; `GoesOn` is such a loop on its way. A loop on its way is
the beginning of the one that ends, if there is one (`GoesOn.rest`), and together with what is left
it makes up that loop (`GoesOn.loops`).

`Logged` keeps the states a computation was stepped in, so that the calls a task makes can be
compared with those of a plain loop.
-/

namespace Espalier

variable {σ R O : Type}

/-- A computation together with the states it was stepped in, the latest last. -/
structure Logged (σ : Type) where
  state : σ
  calls : List σ

def Logged.ofState (c : σ) : Logged σ := { state := c, calls := [] }

instance [Stepwise σ R O] : Stepwise (Logged σ) R O where
  step l :=
    let report := Stepwise.step l.state
    { state := { state := report.state, calls := l.calls ++ [l.state] }
      result := report.result
      cancels := report.cancels }

namespace Stepwise

variable [Stepwise σ R O] {c c' : σ} {calls before : List σ} {ending : Except (Failure R) O}

/-- A plain loop: the states it steps in and how it ends. -/
inductive Loops : σ → List σ → Except (Failure R) O → Prop where
  | last {c : σ} {ending : Except (Failure R) O} (result : (step c).result = ending.map .done) :
    Loops c [c] ending
  | next {c : σ} {calls : List σ} {ending : Except (Failure R) O}
    (result : (step c).result = .ok .pending) (rest : Loops (step c).state calls ending) :
    Loops c (c :: calls) ending

/-- A plain loop on its way: the states it has stepped in, none of them the last, and the one it
has come to. -/
inductive GoesOn (c : σ) : List σ → σ → Prop where
  | start : GoesOn c [] c
  | next {calls : List σ} {c' : σ} (before : GoesOn c calls c')
    (result : (step c').result = .ok .pending) : GoesOn c (calls ++ [c']) (step c').state

/-- A step that goes on does not end a loop. -/
theorem map_done_ne_pending (ending : Except (Failure R) O) :
    ending.map Step.done ≠ .ok .pending := by
  cases ending <;> exact nofun

/-- An ending is told by the step that led to it. -/
theorem ending_injective {ending ending' : Except (Failure R) O}
    (h : ending.map Step.done = ending'.map Step.done) : ending = ending' := by
  cases ending <;> cases ending'
  case error.error => exact congrArg _ (Except.error.inj h)
  case ok.ok => exact congrArg _ (Step.done.inj (Except.ok.inj h))
  all_goals exact nomatch h

/-- Every call of a loop on its way went on. -/
theorem GoesOn.pending (h : GoesOn c calls c') :
    ∀ call ∈ calls, (step call).result = .ok .pending := by
  induction h with
  | start => exact fun call hcall => absurd hcall List.not_mem_nil
  | next _ result ih =>
    intro call hcall
    rcases List.mem_append.mp hcall with hbefore | hlast
    · exact ih call hbefore
    · rw [List.mem_singleton.mp hlast]
      exact result

/-- A loop on its way from the second state is one from the first. -/
theorem GoesOn.cons (result : (step c).result = .ok .pending)
    (h : GoesOn (step c).state calls c') : GoesOn c (c :: calls) c' := by
  induction h with
  | start => exact .next .start result
  | next _ hresult ih => exact .next ih hresult

/-- A loop on its way and a loop from where it has come to are one loop. -/
theorem GoesOn.loops (h : GoesOn c before c') (rest : Loops c' calls ending) :
    Loops c (before ++ calls) ending := by
  induction h generalizing calls with
  | start => exact rest
  | next _ result ih =>
    rw [List.append_assoc]
    exact ih (.next result rest)

/-- A loop that ends starts with what it does on its way. -/
theorem GoesOn.rest (h : GoesOn c before c') (hloops : Loops c calls ending) :
    ∃ rest, calls = before ++ rest ∧ Loops c' rest ending := by
  induction h with
  | start => exact ⟨calls, rfl, hloops⟩
  | next _ result ih =>
    obtain ⟨rest, rfl, hrest⟩ := ih
    cases hrest with
    | last hlast => exact absurd (hlast.symm.trans result) (map_done_ne_pending ending)
    | next _ hrest => exact ⟨_, (List.append_assoc _ [_] _).symm, hrest⟩

theorem Loops.ne_nil (h : Loops c calls ending) : calls ≠ [] := by
  cases h <;> exact List.cons_ne_nil _ _

/-- A loop that ends goes on until its last step. -/
theorem Loops.split (h : Loops c calls ending) : ∃ before last, calls = before ++ [last] ∧
    GoesOn c before last ∧ (step last).result = ending.map .done := by
  induction h with
  | last result => exact ⟨[], _, rfl, .start, result⟩
  | next result _ ih =>
    obtain ⟨before, last, rfl, hbefore, hlast⟩ := ih
    exact ⟨_ :: before, last, rfl, .cons result hbefore, hlast⟩

/-- A computation is looped over in one way only. -/
theorem Loops.unique {calls' : List σ} {ending' : Except (Failure R) O}
    (h : Loops c calls ending) (h' : Loops c calls' ending') :
    calls = calls' ∧ ending = ending' := by
  -- What the first loop does on its way also begins the second one; only the last call is left.
  obtain ⟨before, last, rfl, hbefore, hlast⟩ := h.split
  obtain ⟨rest, rfl, hrest⟩ := hbefore.rest h'
  cases hrest with
  | last hlast' => exact ⟨rfl, ending_injective (hlast.symm.trans hlast')⟩
  | next result _ => exact absurd (hlast.symm.trans result) (map_done_ne_pending ending)

/-- Only the last call of a loop does not go on. -/
theorem Loops.pending (h : Loops c calls ending) {earlier later : List σ} {call : σ}
    (hcalls : calls = earlier ++ call :: later) (hlater : later ≠ []) :
    (step call).result = .ok .pending := by
  obtain ⟨before, last, rfl, hbefore, -⟩ := h.split
  refine hbefore.pending call ?_
  rw [← List.dropLast_concat_getLast hlater, ← List.cons_append, ← List.append_assoc] at hcalls
  obtain ⟨rfl, -⟩ := List.append_inj' hcalls rfl
  exact List.mem_append_right _ List.mem_cons_self

end Stepwise

end Espalier
