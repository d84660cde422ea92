import StraightLine.Proofs.Machine
import StraightLine.Proofs.Slots
import StraightLine.Proofs.Program.Origin

/-!
# Listings follow origins

Between two statements the slots of the frame hold what the origins say. Each
statement keeps this, and a call of `printf` does because the whole frame is
reserved. What a listing prints is then known for any content of the stack.
-/

namespace StraightLine.Machine

open Assembly Statement

/-- The state of a machine between two statements of a program that ends up with the given
slots. A slot that is not yet given out holds what was left over in it. -/
structure Follows (final : Slots) (leftovers : String → Int32) (slots : Slots) (origins : Origins)
    (state : State) : Prop where
  based : state.stage = .based
  room : 4 * final.names.length ≤ state.reserved
  within : ∀ name, name ∈ slots.names → name ∈ final.names
  given : ∀ name, slots.address? name = (origins name).map fun _ => final.address name
  held : ∀ name ∈ final.names, state.memory.cell (-(final.address name : Int)) =
    ((origins name).getD (.leftover name)).read leftovers

section Steps

variable {outside : Surroundings} {state : State}

theorem step_load (h : state.stage = .based) (register : Register) (operand : Operand) :
    step outside state (.load register operand) =
      some (state.put register (state.operand operand)) := by
  rw [step]
  exact h

theorem step_store (h : state.stage = .based) (address : Nat) :
    step outside state (.store address) = some (state.store address) := by
  rw [step]
  exact h

theorem step_loadFormat (h : state.stage = .based) :
    step outside state .loadFormat = some (state.put .edi outside.format) := by
  rw [step]
  exact h

theorem step_callPrint (h : state.stage = .based) (hformat : state.edi = outside.format) :
    step outside state .callPrint = some (state.print outside) := by
  rw [step, if_pos hformat]
  exact h

theorem step_leave (h : state.stage = .based) :
    step outside state .leave = some { state with stage := .left } := by
  rw [step]
  exact h

theorem run_assignmentLines (h : state.stage = .based) (slots : Slots) (target : String)
    (expression : Expression) :
    run outside state ((assignmentLines slots target expression).flatMap Line.instructions) =
      some ((state.put .eax (state.operand (.ofExpression slots expression))).store
        (slots.address target)) := by
  have hloaded : ∀ value, (state.put .eax value).stage = .based := fun _ => h
  change run outside state [.load .eax _, .store _] = _
  rw [run_cons, step_load h, Option.bind_some, run_cons, step_store (hloaded _)]
  rfl

theorem run_outputLines (h : state.stage = .based) (slots : Slots) (expression : Expression) :
    run outside state ((outputLines slots expression).flatMap Line.instructions) =
      some ((((state.put .esi (state.operand (.ofExpression slots expression))).put .edi
        outside.format).put .eax 0).print outside) := by
  have hfirst : ∀ value, (state.put .esi value).stage = .based := fun _ => h
  have hsecond : ∀ value, ((state.put .esi value).put .edi outside.format).stage = .based :=
    fun _ => h
  have hthird : ∀ value, (((state.put .esi value).put .edi outside.format).put .eax 0).stage =
      .based := fun _ => h
  change run outside state [.load .esi _, .loadFormat, .load .eax _, .callPrint] = _
  rw [run_cons, step_load h, Option.bind_some, run_cons, step_loadFormat (hfirst _),
    Option.bind_some, run_cons, step_load (hsecond _), Option.bind_some, run_cons,
    State.operand, step_callPrint (hthird _) rfl]
  rfl

end Steps

namespace Follows

variable {outside : Surroundings} {final slots : Slots} {leftovers : String → Int32}
  {origins : Origins} {state : State}

theorem operand (h : Follows final leftovers slots origins state) (expression : Expression) :
    state.operand (.ofExpression slots expression) =
      (expression.origin origins).read leftovers := by
  cases expression with
  | number literal => rfl
  | identifier name =>
    have hgiven := h.given name
    rw [Operand.ofExpression, Expression.origin]
    cases horigin : origins name with
    | none =>
      rw [horigin] at hgiven
      rw [hgiven]
      rfl
    | some origin =>
      rw [horigin] at hgiven
      have hheld := h.held name (h.within name (Slots.of_address?_eq_some hgiven).1)
      rw [horigin] at hheld
      rw [hgiven]
      exact hheld

theorem put (h : Follows final leftovers slots origins state) (register : Register)
    (value : Int32) : Follows final leftovers slots origins (state.put register value) := by
  cases register
  · exact ⟨h.based, h.room, h.within, h.given, h.held⟩
  · exact ⟨h.based, h.room, h.within, h.given, h.held⟩
  · exact ⟨h.based, h.room, h.within, h.given, h.held⟩

/-- A call keeps every slot of the final frame, also those not yet given out. -/
theorem print (h : Follows final leftovers slots origins state) :
    Follows final leftovers slots origins (state.print outside) := by
  refine ⟨h.based, h.room, h.within, h.given, ?_⟩
  intro name hname
  have haddress := Slots.address_le hname
  have hroom := h.room
  refine Eq.trans ?_ (h.held name hname)
  exact Memory.cell_clobber_of_le _ _ (by omega)

theorem reserve {target : String} (h : Follows final leftovers slots origins state)
    (hmem : target ∈ final.names) (hplace : slots.address target = final.address target) :
    Follows final leftovers (slots.allocate target) (origins.reserve target) state := by
  refine ⟨h.based, h.room, ?_, ?_, ?_⟩
  · intro name hname
    rcases (Slots.mem_names_allocate_iff _ _ _).mp hname with hname | rfl
    · exact h.within name hname
    · exact hmem
  · intro name
    rcases eq_or_ne name target with rfl | hne
    · rw [Slots.address?_allocate_self, hplace, Origins.reserve, Function.update_self]
      rfl
    · rw [Slots.address?_allocate_of_ne hne, Origins.reserve, Function.update_of_ne hne]
      exact h.given name
  · intro name hname
    rw [h.held name hname, Origins.reserve]
    rcases eq_or_ne name target with rfl | hne
    · rw [Function.update_self]
      rfl
    · rw [Function.update_of_ne hne]

theorem store {target : String} {origin : Origin}
    (h : Follows final leftovers slots origins state) (hmem : target ∈ slots.names)
    (heax : state.eax = origin.read leftovers) :
    Follows final leftovers slots (Function.update origins target (some origin))
      (state.store (final.address target)) := by
  refine ⟨h.based, h.room, h.within, ?_, ?_⟩
  · intro name
    rcases eq_or_ne name target with rfl | hne
    · have hgiven := h.given name
      rw [Slots.mem_names_iff_address?.mp hmem] at hgiven
      rw [Function.update_self, Slots.mem_names_iff_address?.mp hmem]
      cases horigin : origins name with
      | none =>
        rw [horigin] at hgiven
        cases hgiven
      | some other =>
        rw [horigin] at hgiven
        exact hgiven
    · rw [Function.update_of_ne hne]
      exact h.given name
  · intro name hname
    rcases eq_or_ne name target with rfl | hne
    · rw [Function.update_self]
      exact (Memory.cell_store_self _ _ _).trans heax
    · rw [Function.update_of_ne hne, ← h.held name hname]
      have hapart := Slots.address_apart (h.within target hmem) hne
      apply Memory.cell_store_of_disjoint
      omega

theorem assignment {target : String} (h : Follows final leftovers slots origins state)
    (hmem : target ∈ final.names) (hplace : slots.address target = final.address target)
    (expression : Expression) :
    ∃ next, run outside state
        ((assignmentLines (slots.allocate target) target expression).flatMap Line.instructions) =
          some next ∧
      Follows final leftovers (slots.allocate target) (origins.assign target expression) next ∧
      next.printed = state.printed := by
  have hreserved := h.reserve hmem hplace
  have hloaded := hreserved.put .eax
    (state.operand (.ofExpression (slots.allocate target) expression))
  have hslot : target ∈ (slots.allocate target).names :=
    (Slots.mem_names_allocate_iff _ _ _).mpr (.inr rfl)
  refine ⟨_, run_assignmentLines h.based _ _ _, ?_, rfl⟩
  rw [Slots.address_allocate, hplace, Origins.assign]
  have hstored := hloaded.store hslot (hreserved.operand expression)
  rw [Origins.reserve, Function.update_idem] at hstored
  exact hstored

theorem output (h : Follows final leftovers slots origins state) (expression : Expression) :
    ∃ next, run outside state ((outputLines slots expression).flatMap Line.instructions) =
        some next ∧
      Follows final leftovers slots origins next ∧
      next.printed = state.printed ++
        (Decimal.ofValue ((expression.origin origins).read leftovers) ++ "\n") := by
  refine ⟨_, run_outputLines h.based _ _, ?_, ?_⟩
  · exact (((h.put _ _).put _ _).put _ _).print
  · rw [Decimal.ofValue_eq_toString, ← h.operand]
    rfl

/-- The code of statements leaves in the slots what the statements' origins say, and prints what
the origins of the printed values are worth. -/
theorem statements {statements : List Statement} (h : Follows final leftovers slots origins state)
    (hfinal : (compile slots statements).1 = final) :
    ∃ next, run outside state ((compile slots statements).2.flatMap Line.instructions) =
        some next ∧
      Follows final leftovers final (trace origins statements).1 next ∧
      next.printed = state.printed ++ String.join ((trace origins statements).2.map fun origin =>
        Decimal.ofValue (origin.read leftovers) ++ "\n") := by
  induction statements generalizing slots origins state with
  | nil =>
    obtain rfl : slots = final := hfinal
    exact ⟨state, rfl, h, by simp [trace]⟩
  | cons statement rest ih =>
    cases statement with
    | assignment target expression =>
      -- the slot given out here is the one the target has at the end
      have hrest : (compile (slots.allocate target) rest).1 = final := hfinal
      have hplace := address?_compile_of_some (Slots.address?_allocate_self slots target) rest
      rw [hrest] at hplace
      obtain ⟨hmem, hplace⟩ := Slots.of_address?_eq_some hplace
      obtain ⟨middle, hfirst, hmiddle, hprinted⟩ := h.assignment hmem hplace expression
      obtain ⟨next, hsecond, hnext, hmore⟩ := ih hmiddle hrest
      refine ⟨next, ?_, hnext, ?_⟩
      · rw [compile, List.flatMap_append, run_append, hfirst]
        exact hsecond
      · rw [hmore, hprinted]
        rfl
    | output expression =>
      obtain ⟨middle, hfirst, hmiddle, hprinted⟩ := h.output expression
      obtain ⟨next, hsecond, hnext, hmore⟩ := ih hmiddle hfinal
      refine ⟨next, ?_, hnext, ?_⟩
      · rw [compile, List.flatMap_append, run_append, hfirst]
        exact hsecond
      · rw [hmore, hprinted, trace, List.map_cons, String.join_cons, String.append_assoc]

end Follows

end StraightLine.Machine
