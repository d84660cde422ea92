import StraightLine.Proofs.Slots
import StraightLine.Proofs.Tools
import StraightLine.Proofs.Program.Listing
import Mathlib.Order.Bounds.Defs
import Mathlib.Data.Set.Basic

/-!
# Frames of translations

The frame of a listing is sized before its first statement is translated, from
the list of the assigned names alone, and the slots are handed out later, one
by one. The two agree: a name has the slot of its place in that list, the frame
is the smallest that holds all slots, and the instructions of the statements
name no memory but slots.
-/

namespace StraightLine

/-! ### Order of first assignments -/

namespace Program

/-- How many statements stand in front of the first assignment to the name. -/
def firstAssignment (statements : List Statement) (name : String) : Nat :=
  statements.findIdx fun statement => statement.target? = some name

theorem mem_assignedAfter_nil_iff (statements : List Statement) (name : String) :
    name ∈ assignedAfter [] statements ↔ firstAssignment statements name < statements.length := by
  simp [mem_assignedAfter_iff, firstAssignment]

theorem firstAssignment_append (statements : List Statement) (statement : Statement)
    {name : String} (h : name ∈ assignedAfter [] statements) :
    firstAssignment (statements ++ [statement]) name = firstAssignment statements name := by
  rw [mem_assignedAfter_nil_iff] at h
  rw [firstAssignment, List.findIdx_append]
  exact if_pos h

theorem length_le_firstAssignment (statements : List Statement) (statement : Statement)
    {name : String} (h : name ∉ assignedAfter [] statements) :
    statements.length ≤ firstAssignment (statements ++ [statement]) name := by
  rw [mem_assignedAfter_nil_iff] at h
  rw [firstAssignment, List.findIdx_append]
  exact (if_neg h).ge.trans' (Nat.le_add_left _ _)

theorem assignedAfter_append (names : List String) (first second : List Statement) :
    assignedAfter names (first ++ second) = assignedAfter (assignedAfter names first) second := by
  rw [assignedAfter, assignedAfter, assignedAfter, List.filterMap_append, List.foldl_append]

theorem pairwise_assignedAfter (statements : List Statement) :
    (assignedAfter [] statements).Pairwise fun first second =>
      firstAssignment statements first < firstAssignment statements second := by
  induction statements using List.reverseRecOn with
  | nil => exact .nil
  | append_singleton statements statement ih =>
    have hkept : (assignedAfter [] statements).Pairwise fun first second =>
        firstAssignment (statements ++ [statement]) first <
          firstAssignment (statements ++ [statement]) second := by
      refine ih.imp_of_mem ?_
      intro first second hfirst hsecond h
      rwa [firstAssignment_append _ _ hfirst, firstAssignment_append _ _ hsecond]
    rw [assignedAfter_append]
    cases statement with
    | output expression => exact hkept
    | assignment target expression =>
      change (enlist (assignedAfter [] statements) target).Pairwise _
      rw [enlist]
      split
      · exact hkept
      · rename_i hfresh
        refine List.pairwise_append.mpr ⟨hkept, List.pairwise_singleton _ _, ?_⟩
        intro name hname other hother
        obtain rfl := List.mem_singleton.mp hother
        rw [firstAssignment_append _ _ hname]
        exact ((mem_assignedAfter_nil_iff _ _).mp hname).trans_le
          (length_le_firstAssignment _ _ hfresh)

end Program

/-! ### Handing out slots -/

namespace Assembly

/-- A target that has no slot yet gets the one behind those handed out so far. -/
def handOut (handed : List (String × Nat)) : Statement → List (String × Nat)
  | .assignment target _ =>
    if (handed.lookup target).isSome then handed
    else handed ++ [(target, 4 * (handed.length + 1))]
  | .output _ => handed

namespace Slots

variable {slots : Slots} {name : String}

def handed (slots : Slots) : List (String × Nat) :=
  slots.names.mapIdx fun i name => (name, 4 * (i + 1))

theorem lookup_mapIdx (names : List String) (name : String) (place : Nat → Nat) :
    (names.mapIdx fun i name => (name, place i)).lookup name =
      if name ∈ names then some (place (names.idxOf name)) else none := by
  induction names generalizing place with
  | nil => rfl
  | cons first names ih =>
    rw [List.mapIdx_cons, List.lookup_cons, ih fun i => place (i + 1)]
    rcases eq_or_ne name first with rfl | hne
    · simp
    · rw [beq_eq_false_iff_ne.mpr hne, List.idxOf_cons_ne _ hne.symm]
      simp [hne]

theorem lookup_handed (slots : Slots) (name : String) :
    slots.handed.lookup name = slots.address? name :=
  lookup_mapIdx slots.names name fun i => 4 * (i + 1)

theorem handOut_handed (slots : Slots) (target : String) (expression : Expression) :
    handOut slots.handed (.assignment target expression) = (slots.allocate target).handed := by
  rw [handOut, lookup_handed, address?, allocate, Program.enlist]
  split
  · rfl
  · rw [if_neg (by simp)]
    simp [handed]

theorem foldl_handOut (slots : Slots) (statements : List Statement) :
    statements.foldl handOut slots.handed = (compile slots statements).1.handed := by
  induction statements generalizing slots with
  | nil => rfl
  | cons statement rest ih =>
    cases statement with
    | assignment target expression => rw [List.foldl_cons, handOut_handed, ih]; rfl
    | output expression => exact ih slots

theorem address?_getElem (hnodup : slots.names.Nodup) {i : Nat} (h : i < slots.names.length) :
    slots.address? slots.names[i] = some (4 * (i + 1)) := by
  rw [address?, if_pos (List.getElem_mem h), address, hnodup.idxOf_getElem i h]

end Slots

/-- The bytes of the slot at this distance below the frame base. -/
def slotBytes (place : Nat) : Set Int :=
  {byte | -(place : Int) ≤ byte ∧ byte < -(place : Int) + 4}

theorem slotBytes_inter_eq_empty {place other : Nat}
    (h : other + 4 ≤ place ∨ place + 4 ≤ other) : slotBytes place ∩ slotBytes other = ∅ := by
  apply Set.eq_empty_of_forall_notMem
  rintro byte ⟨⟨hlow, hhigh⟩, hbelow, habove⟩
  omega

theorem isLeast_frameSize (names : Nat) :
    IsLeast {size | 16 ∣ size ∧ 16 ≤ size ∧ 4 * names ≤ size} (frameSize names) := by
  constructor
  · refine ⟨⟨_, rfl⟩, ?_, le_frameSize names⟩
    rw [frameSize]
    omega
  · rintro size ⟨⟨units, rfl⟩, hunit, hnames⟩
    rw [frameSize]
    omega

/-! ### Memory that instructions name -/

/-- Wherever the line opens a bracket, the place of a slot follows. -/
def Line.NamesSlots (slots : Slots) (line : Line) : Prop :=
  ∀ front back, line.text.toList = front ++ '[' :: back →
    ∃ name place rest, slots.address? name = some place ∧ '[' :: back = placeText place ++ rest

namespace Line

variable {slots : Slots} {line : Line}

theorem namesSlots_of_not_mem (h : '[' ∉ line.text.toList) : line.NamesSlots slots := by
  intro front back htext
  rw [htext] at h
  exact absurd (List.mem_append_right _ List.mem_cons_self) h

theorem NamesSlots.mono (h : line.NamesSlots slots) {more : Slots}
    (hmore : ∀ name place, slots.address? name = some place → more.address? name = some place) :
    line.NamesSlots more := by
  intro front back htext
  obtain ⟨name, place, rest, hname, hback⟩ := h front back htext
  exact ⟨name, place, rest, hmore name place hname, hback⟩

/-- A line with a single bracket names the slot that follows there. -/
theorem namesSlots_of_text {name : String} {place : Nat} {before behind : List Char}
    (hname : slots.address? name = some place)
    (htext : line.text.toList = before ++ placeText place ++ behind)
    (hbefore : '[' ∉ before) (hbehind : '[' ∉ behind) : line.NamesSlots slots := by
  intro front back hsplit
  have hdigits : '[' ∉ Decimal.digits place := Decimal.not_mem_digits rfl place
  have hplace : before ++ placeText place ++ behind =
      before ++ '[' :: (['r', 'b', 'p', '-'] ++ Decimal.digits place ++ ']' :: behind) := by
    simp [placeText]
  rw [htext, hplace] at hsplit
  obtain ⟨-, -, rfl⟩ :=
    (List.append_cons_inj_of_notMem hbefore (by simp [hdigits, hbehind])).mp hsplit
  exact ⟨name, place, behind, hname, by simp [placeText]⟩

theorem exists_address?_of_ofExpression {expression : Expression} {place : Nat}
    (h : Operand.ofExpression slots expression = .slot place) :
    ∃ name, slots.address? name = some place := by
  cases expression with
  | number literal => cases h
  | identifier name =>
    rw [Operand.ofExpression] at h
    split at h
    · rename_i hname
      cases h
      exact ⟨name, hname⟩
    · cases h

theorem namesSlots_immediate (register : Register) (value : Int32) :
    (code (.load register (.immediate value))).NamesSlots slots := by
  have hregister : '[' ∉ register.text.toList := by cases register <;> decide
  have hvalue : '[' ∉ (Decimal.ofValue value).toList := by
    rw [Decimal.ofValue, String.toList_ofList]
    exact not_mem_numeral rfl (by decide) _
  apply namesSlots_of_not_mem
  simp [text, Instruction.text, Operand.text, hregister, hvalue]

theorem namesSlots_load (slots : Slots) (register : Register) (expression : Expression) :
    (code (.load register (.ofExpression slots expression))).NamesSlots slots := by
  cases hoperand : Operand.ofExpression slots expression with
  | immediate value => exact namesSlots_immediate register value
  | slot place =>
    obtain ⟨name, hname⟩ := exists_address?_of_ofExpression hoperand
    have hregister : '[' ∉ register.text.toList := by cases register <;> decide
    have htext : (code (.load register (.slot place))).text.toList =
        ("    mov ".toList ++ register.text.toList ++ ", DWORD PTR ".toList) ++ placeText place ++
          [] := by
      simp [text, Instruction.text, Operand.text, toList_slotText]
    exact namesSlots_of_text hname htext (by simp [hregister]) List.not_mem_nil

theorem namesSlots_store {name : String} {place : Nat} (h : slots.address? name = some place) :
    (code (.store place)).NamesSlots slots := by
  have htext : (code (.store place)).text.toList =
      "    mov DWORD PTR ".toList ++ placeText place ++ ", eax".toList := by
    simp [text, Instruction.text, toList_slotText]
  exact namesSlots_of_text h htext (by decide) (by decide)

end Line

variable {slots : Slots}

theorem namesSlots_assignmentLines (slots : Slots) (target : String) (expression : Expression) :
    ∀ line ∈ assignmentLines (slots.allocate target) target expression,
      line = .comment (Statement.assignment target expression).comment ∨
        line.NamesSlots (slots.allocate target) := by
  have hplace := slots.address?_allocate_self target
  rw [← slots.address_allocate] at hplace
  rw [assignmentLines, List.forall_mem_cons, List.forall_mem_cons, List.forall_mem_singleton]
  exact ⟨.inl rfl, .inr (Line.namesSlots_load _ _ _), .inr (Line.namesSlots_store hplace)⟩

theorem namesSlots_outputLines (slots : Slots) (expression : Expression) :
    ∀ line ∈ outputLines slots expression,
      line = .comment (Statement.output expression).comment ∨ line.NamesSlots slots := by
  rw [outputLines, List.forall_mem_cons, List.forall_mem_cons, List.forall_mem_cons,
    List.forall_mem_cons, List.forall_mem_singleton]
  exact ⟨.inl rfl, .inr (Line.namesSlots_load _ _ _),
    .inr (Line.namesSlots_of_not_mem (by decide)), .inr (Line.namesSlots_immediate _ _),
    .inr (Line.namesSlots_of_not_mem (by decide))⟩

/-- No slot moves any more, so what a line names when it is written it names in the end. -/
theorem namesSlots_compile (slots : Slots) (statements : List Statement) :
    ∀ line ∈ (compile slots statements).2,
      (∃ statement ∈ statements, line = .comment statement.comment) ∨
        line.NamesSlots (compile slots statements).1 := by
  induction statements generalizing slots with
  | nil => nofun
  | cons statement rest ih =>
    have hrest : ∀ slots, ∀ line ∈ (compile slots rest).2,
        (∃ other ∈ statement :: rest, line = .comment other.comment) ∨
          line.NamesSlots (compile slots rest).1 := by
      intro slots line hline
      obtain ⟨other, hother, hcomment⟩ | hnames := ih slots line hline
      · exact .inl ⟨other, List.mem_cons_of_mem _ hother, hcomment⟩
      · exact .inr hnames
    have hfirst : ∀ (slots : Slots) (line : Line),
        line = .comment statement.comment ∨ line.NamesSlots slots →
        (∃ other ∈ statement :: rest, line = .comment other.comment) ∨
          line.NamesSlots (compile slots rest).1 := by
      rintro slots line (hcomment | hnames)
      · exact .inl ⟨statement, List.mem_cons_self, hcomment⟩
      · exact .inr (hnames.mono fun name place h => address?_compile_of_some h rest)
    cases statement with
    | assignment target expression =>
      exact List.forall_mem_append.mpr
        ⟨fun line hline => hfirst _ line (namesSlots_assignmentLines _ _ _ line hline),
          hrest (slots.allocate target)⟩
    | output expression =>
      exact List.forall_mem_append.mpr
        ⟨fun line hline => hfirst _ line (namesSlots_outputLines _ _ line hline), hrest slots⟩

/-- A slot that is handed out is stored to. -/
theorem store_mem_compile {statements : List Statement} {name : String} {place : Nat}
    (h : (compile slots statements).1.address? name = some place) :
    slots.address? name = some place ∨
      Line.code (.store place) ∈ (compile slots statements).2 := by
  induction statements generalizing slots with
  | nil => exact .inl h
  | cons statement rest ih =>
    cases statement with
    | output expression => exact (ih h).imp_right (List.mem_append_right _)
    | assignment target expression =>
      obtain hkept | hstore := @ih (slots.allocate target) h
      · rcases eq_or_ne name target with rfl | hne
        · obtain rfl := (Slots.of_address?_eq_some hkept).2
          refine .inr (List.mem_append_left _ ?_)
          exact List.mem_cons_of_mem _ (List.mem_cons_of_mem _ (List.mem_singleton.mpr rfl))
        · rw [Slots.address?_allocate_of_ne hne] at hkept
          exact .inl hkept
      · exact .inr (List.mem_append_right _ hstore)

end Assembly

/-! ### Frames -/

theorem Statement.isSome_value?_run (store : Store) (statements : List Statement) (name : String) :
    ((run store statements).1.value? name).isSome = true ↔
      (store.value? name).isSome = true ∨
        ∃ statement ∈ statements, statement.target? = some name := by
  induction statements generalizing store with
  | nil => simp [run]
  | cons statement rest ih =>
    rw [List.exists_mem_cons_iff]
    cases statement with
    | output expression =>
      change ((run store rest).1.value? name).isSome = true ↔ _
      simp [ih, target?]
    | assignment target expression =>
      change ((run (store.set target _) rest).1.value? name).isSome = true ↔ _
      rw [ih, Store.value?_set, target?]
      split
      · rename_i heq
        simp [heq]
      · rename_i hne
        simp [Ne.symm hne]

namespace Program

open Assembly

/-- The lines between the prologue and the epilogue. -/
def body (program : Program) : List Line :=
  (compile .empty program.statements).2

/-- A text and slots that share the frame of a program, and a store with the same names. -/
structure Framed (program : Program) (text : String) (slots : Slots) (store : Store) : Prop where
  nodup_assigned : program.assigned.Nodup
  mem_assigned_iff : ∀ name, name ∈ program.assigned ↔
    ∃ expression, Statement.assignment name expression ∈ program.statements
  pairwise_assigned : program.assigned.Pairwise fun first second =>
    firstAssignment program.statements first < firstAssignment program.statements second
  address?_getElem : ∀ (i : Nat) (h : i < program.assigned.length),
    slots.address? program.assigned[i] = some (4 * (i + 1))
  address?_eq_none : ∀ name, name ∉ program.assigned → slots.address? name = none
  /-- Handing out slots needs no look ahead. -/
  address?_eq_lookup : ∀ name,
    slots.address? name = (program.statements.foldl handOut []).lookup name
  disjoint : ∀ name other place next, name ≠ other → slots.address? name = some place →
    slots.address? other = some next → slotBytes place ∩ slotBytes next = ∅
  isLeast_frameSize :
    IsLeast {size | 16 ∣ size ∧ 16 ≤ size ∧ 4 * program.assigned.length ≤ size} program.frameSize
  address_le_frameSize : ∀ name place, slots.address? name = some place →
    place ≤ program.frameSize
  text_eq : text = listing (prologue program.frameSize ++ program.body ++ epilogue)
  namesSlots : ∀ line ∈ program.body,
    (∃ statement ∈ program.statements, line = .comment statement.comment) ∨ line.NamesSlots slots
  store_mem_body : ∀ name place, slots.address? name = some place →
    Line.code (.store place) ∈ program.body
  isSome_value?_iff : ∀ name,
    (store.value? name).isSome = true ↔ (slots.address? name).isSome = true

theorem isSome_address?_slots_iff (program : Program) (name : String) :
    (program.slots.address? name).isSome = true ↔ name ∈ program.assigned := by
  rw [Slots.address?, ← mem_names_slots_iff]
  split <;> simp_all

/-- Whatever the translator and the runner did before: once they have worked on a program, the
slots and the text of the one and the store of the other go with the frame of that program. -/
theorem framed_translate (program : Program) (translator : Translator) (runner : Runner) :
    program.Framed (translator.translate program).1 (translator.translate program).2.slots
      (runner.run program).2.store := by
  rw [Translator.translate_eq, Runner.run_eq]
  have hnames := program.names_slots
  have hnodup : program.assigned.Nodup := nodup_assignedAfter List.nodup_nil program.statements
  have hplace : ∀ {name place}, program.slots.address? name = some place →
      name ∈ program.slots.names ∧ place = program.slots.address name :=
    Slots.of_address?_eq_some
  refine ⟨hnodup, program.mem_assigned_iff_exists, pairwise_assignedAfter program.statements,
    ?_, ?_, ?_, ?_, isLeast_frameSize _, ?_, rfl, namesSlots_compile .empty program.statements,
    ?_, ?_⟩
  · intro i h
    have hnodupSlots : program.slots.names.Nodup := hnames ▸ hnodup
    have hlt : i < program.slots.names.length := hnames ▸ h
    have hget := Slots.address?_getElem hnodupSlots hlt
    simpa only [hnames] using hget
  · intro name hname
    rw [Slots.address?, if_neg (by rwa [hnames])]
  · intro name
    have hhanded := Slots.foldl_handOut .empty program.statements
    rw [← Slots.lookup_handed]
    exact congrArg (List.lookup name) hhanded.symm
  · intro name other place next hne hname hother
    obtain ⟨hmem, rfl⟩ := hplace hname
    obtain ⟨-, rfl⟩ := hplace hother
    exact slotBytes_inter_eq_empty (Slots.address_apart hmem hne.symm)
  · intro name place hname
    obtain ⟨hmem, rfl⟩ := hplace hname
    have hle := Slots.address_le hmem
    rw [hnames] at hle
    exact hle.trans (le_frameSize _)
  · intro name place hname
    exact (store_mem_compile hname).resolve_left (by simp)
  · intro name
    rw [isSome_address?_slots_iff, assigned, mem_assignedAfter_iff]
    exact (Statement.isSome_value?_run .empty program.statements name).trans (by simp)

end Program

end StraightLine
