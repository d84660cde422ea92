import StraightLine.Proofs.Json

/-!
# What the layouts have in common

Without the blanks that stand outside of strings the two layouts of a value are
the same text, which is the compact layout. It has no character below the space
and so stays on one line.
-/

namespace StraightLine

namespace Json

open Text

/-- Where a character stands: outside of strings, inside of one, or there behind a backslash. -/
inductive Place
  | outside
  | inside
  | escaped
  deriving DecidableEq, Inhabited, Repr

def Place.next : Place → Char → Place
  | outside, c => if c = '"' then inside else outside
  | inside, c => if c = '"' then outside else if c = '\\' then escaped else inside
  | escaped, _ => inside

/-- Leaves out the blanks that stand outside of strings. -/
def condense (place : Place) : List Char → List Char
  | [] => []
  | c :: rest =>
    if place = .outside ∧ isBlank c = true then condense place rest
    else c :: condense (place.next c) rest

def condensed (text : String) : String :=
  String.ofList (condense .outside text.toList)

/-! ### Blanks -/

section Characters

variable {text : List Char} {c : Char}

theorem condense_outside_cons (hquote : c ≠ '"') (hblank : isBlank c = false)
    (rest : List Char) : condense .outside (c :: rest) = c :: condense .outside rest := by
  rw [condense, if_neg (by simp [hblank]), Place.next, if_neg hquote]

theorem condense_inside_cons (hquote : c ≠ '"') (hbackslash : c ≠ '\\') (rest : List Char) :
    condense .inside (c :: rest) = c :: condense .inside rest := by
  rw [condense, if_neg fun h => Place.noConfusion h.1, Place.next, if_neg hquote,
    if_neg hbackslash]

theorem condense_append_of_isBlank (h : ∀ c ∈ text, isBlank c = true) (rest : List Char) :
    condense .outside (text ++ rest) = condense .outside rest := by
  induction text with
  | nil => rfl
  | cons c text ih =>
    obtain ⟨hc, htext⟩ := List.forall_mem_cons.mp h
    rw [List.cons_append, condense, if_pos ⟨rfl, hc⟩, ih htext]

theorem condense_outside_append (h : ∀ c ∈ text, c ≠ '"' ∧ isBlank c = false)
    (rest : List Char) : condense .outside (text ++ rest) = text ++ condense .outside rest := by
  induction text with
  | nil => rfl
  | cons c text ih =>
    obtain ⟨⟨hquote, hblank⟩, htext⟩ := List.forall_mem_cons.mp h
    rw [List.cons_append, condense_outside_cons hquote hblank, ih htext, List.cons_append]

theorem hexDigit_ne {d : Nat} (h : d < 16) : hexDigit d ≠ '"' ∧ hexDigit d ≠ '\\' := by
  have : ∀ e < 16, hexDigit e ≠ '"' ∧ hexDigit e ≠ '\\' := by decide
  exact this d h

/-- A character is escaped in such a way that it does not end its string. -/
theorem condense_escape (c : Char) (rest : List Char) :
    condense .inside (escape c ++ rest) = escape c ++ condense .inside rest := by
  rw [escape]
  -- The seven characters with a letter of their own come first.
  iterate 7
    split
    · rfl
  split
  · rename_i hlow
    obtain ⟨hhigh, hhigh'⟩ := hexDigit_ne (d := c.toNat / 16) (by omega)
    obtain ⟨hrest, hrest'⟩ := hexDigit_ne (Nat.mod_lt c.toNat (by decide : 0 < 16))
    change '\\' :: 'u' :: '0' :: '0' :: condense .inside (_ :: _ :: rest) = _
    rw [condense_inside_cons hhigh hhigh', condense_inside_cons hrest hrest']
    rfl
  · rename_i hquote hbackslash _ _ _ _ _ _
    exact condense_inside_cons hquote hbackslash rest

theorem condense_quote (text : String) (rest : List Char) :
    condense .outside (quote text ++ rest) = quote text ++ condense .outside rest := by
  have hbody : ∀ body : List Char, condense .inside (body.flatMap escape ++ '"' :: rest) =
      body.flatMap escape ++ '"' :: condense .outside rest := by
    intro body
    induction body with
    | nil => rfl
    | cons c body ih =>
      rw [List.flatMap_cons, List.append_assoc, condense_escape, ih, List.append_assoc]
  rw [quote_append, quote_append]
  exact congrArg ('"' :: ·) (hbody text.toList)

theorem condense_gap (layout : Layout) (depth : Nat) (rest : List Char) :
    condense .outside (layout.gap depth ++ rest) = condense .outside rest :=
  condense_append_of_isBlank (layout.isBlank_gap depth) rest

theorem condense_colon (layout : Layout) (rest : List Char) :
    condense .outside (layout.colon ++ rest) = ':' :: condense .outside rest := by
  cases layout <;> rfl

theorem condense_digits (n : Nat) (rest : List Char) :
    condense .outside (Decimal.digits n ++ rest) =
      Decimal.digits n ++ condense .outside rest := by
  refine condense_outside_append (fun c hc => ?_) rest
  constructor
  · rintro rfl
    exact Decimal.not_mem_digits rfl n hc
  · exact isBlank_eq_false_of_isWord (isWord_of_isDigit (Decimal.isDigit_of_mem_digits hc))

end Characters

/-! ### Values -/

/-- What is left of the layout is the compact layout. -/
def Condenses (layout : Layout) (value : Json) : Prop :=
  ∀ (depth outer : Nat) (rest : List Char),
    condense .outside (print layout depth value ++ rest) =
      print .compact outer value ++ condense .outside rest

section Values

variable {layout : Layout}

theorem condense_printItems {items : List Json} (h : ∀ item ∈ items, Condenses layout item)
    (depth outer : Nat) (rest : List Char) :
    condense .outside (printItems layout depth items ++ rest) =
      printItems .compact outer items ++ condense .outside rest := by
  induction items with
  | nil => rfl
  | cons item more ih =>
    obtain ⟨hitem, hmore⟩ := List.forall_mem_cons.mp h
    simp only [printItems, List.cons_append, List.append_assoc]
    rw [condense_outside_cons (by decide) (by decide), condense_gap, hitem depth outer, ih hmore]
    rfl

theorem condense_printMembers {members : List (String × Json)}
    (h : ∀ member ∈ members, Condenses layout member.2) (depth outer : Nat) (rest : List Char) :
    condense .outside (printMembers layout depth members ++ rest) =
      printMembers .compact outer members ++ condense .outside rest := by
  induction members with
  | nil => rfl
  | cons member more ih =>
    obtain ⟨hvalue, hmore⟩ := List.forall_mem_cons.mp h
    simp only [printMembers, List.cons_append, List.append_assoc]
    rw [condense_outside_cons (by decide) (by decide), condense_gap, condense_quote,
      condense_colon, hvalue depth outer, ih hmore]
    rfl

theorem Whole.condenses (layout : Layout) {value : Json} (h : Whole value) :
    Condenses layout value := by
  induction h with
  | null =>
    intro depth outer rest
    rfl
  | bool value =>
    intro depth outer rest
    cases value <;> rfl
  | nat value =>
    intro depth outer rest
    rw [print, print, condense_digits]
  | string text =>
    intro depth outer rest
    rw [print, print, condense_quote]
  | @array items _ ih =>
    intro depth outer rest
    cases items with
    | nil => rfl
    | cons item more =>
      obtain ⟨hitem, hmore⟩ := List.forall_mem_cons.mp ih
      simp only [print, List.cons_append, List.append_assoc]
      rw [condense_outside_cons (by decide) (by decide), condense_gap, hitem _ (outer + 1),
        condense_printItems hmore _ (outer + 1), condense_gap,
        List.nil_append, condense_outside_cons (by decide) (by decide)]
      rfl
  | @object members _ ih =>
    intro depth outer rest
    cases members with
    | nil => rfl
    | cons member more =>
      obtain ⟨name, value⟩ := member
      obtain ⟨(hvalue : Condenses layout value), hmore⟩ := List.forall_mem_cons.mp ih
      simp only [print, List.cons_append, List.append_assoc]
      rw [condense_outside_cons (by decide) (by decide), condense_gap, condense_quote,
        condense_colon, hvalue _ (outer + 1), condense_printMembers hmore _ (outer + 1),
        condense_gap, List.nil_append, condense_outside_cons (by decide) (by decide)]
      rfl

theorem Whole.condensed_text (layout : Layout) {value : Json} (h : Whole value) :
    condensed (value.text layout) = value.text .compact := by
  have hleft := h.condenses layout 0 0 []
  rw [List.append_nil, condense, List.append_nil] at hleft
  rw [condensed, text, String.toList_ofList, hleft]
  rfl

end Values

/-! ### Characters of the compact layout -/

/-- No character is below the space, so there is no line feed. -/
def Flat (text : List Char) : Prop :=
  ∀ c ∈ text, 0x20 ≤ c.toNat

-- Decided over the text, never over all characters, which are finitely many as well.
instance (text : List Char) : Decidable (Flat text) :=
  List.decidableBAll (fun c : Char => 0x20 ≤ c.toNat) text

section Flatness

@[simp] theorem flat_nil : Flat [] :=
  List.forall_mem_nil _

@[simp] theorem flat_cons {c : Char} {rest : List Char} :
    Flat (c :: rest) ↔ 0x20 ≤ c.toNat ∧ Flat rest :=
  List.forall_mem_cons

@[simp] theorem flat_append {front back : List Char} :
    Flat (front ++ back) ↔ Flat front ∧ Flat back :=
  List.forall_mem_append

theorem Flat.newline_not_mem {text : List Char} (h : Flat text) : '\n' ∉ text :=
  fun hmem => absurd (h _ hmem) (by decide)

theorem le_toNat_hexDigit {d : Nat} (h : d < 16) : 0x20 ≤ (hexDigit d).toNat := by
  have : ∀ e < 16, 0x20 ≤ (hexDigit e).toNat := by decide
  exact this d h

theorem flat_escape (c : Char) : Flat (escape c) := by
  rw [escape]
  iterate 7
    split
    · decide
  split
  · have hhigh := le_toNat_hexDigit (d := c.toNat / 16) (by omega)
    have hlow := le_toNat_hexDigit (Nat.mod_lt c.toNat (by decide : 0 < 16))
    simp [hhigh, hlow]
  · rename_i hlow
    exact List.forall_mem_singleton.mpr (Nat.le_of_not_lt hlow)

@[simp] theorem flat_quote (text : String) : Flat (quote text) := by
  have hbody : Flat (text.toList.flatMap escape) := by
    intro c hc
    obtain ⟨d, -, hd⟩ := List.mem_flatMap.mp hc
    exact flat_escape d c hd
  simp [quote, hbody]

@[simp] theorem flat_digits (n : Nat) : Flat (Decimal.digits n) := by
  intro c hc
  have := toNat_of_isDigit (Decimal.isDigit_of_mem_digits hc)
  omega

@[simp] theorem flat_gap_compact (depth : Nat) : Flat (Layout.compact.gap depth) :=
  flat_nil

@[simp] theorem flat_colon (layout : Layout) : Flat layout.colon := by
  cases layout <;> decide

theorem flat_printItems {items : List Json}
    (h : ∀ item ∈ items, ∀ depth, Flat (print .compact depth item)) (depth : Nat) :
    Flat (printItems .compact depth items) := by
  induction items with
  | nil => exact flat_nil
  | cons item more ih =>
    obtain ⟨hitem, hmore⟩ := List.forall_mem_cons.mp h
    simp [printItems, hitem, ih hmore]

theorem flat_printMembers {members : List (String × Json)}
    (h : ∀ member ∈ members, ∀ depth, Flat (print .compact depth member.2)) (depth : Nat) :
    Flat (printMembers .compact depth members) := by
  induction members with
  | nil => exact flat_nil
  | cons member more ih =>
    obtain ⟨hvalue, hmore⟩ := List.forall_mem_cons.mp h
    simp [printMembers, hvalue, ih hmore]

theorem Whole.flat {value : Json} (h : Whole value) (depth : Nat) :
    Flat (print .compact depth value) := by
  induction h generalizing depth with
  | null =>
    rw [print]
    decide
  | bool value => cases value <;> rw [print] <;> decide
  | nat value =>
    rw [print]
    exact flat_digits value
  | string text =>
    rw [print]
    exact flat_quote text
  | @array items _ ih =>
    cases items with
    | nil =>
      rw [print]
      decide
    | cons item more =>
      obtain ⟨hitem, hmore⟩ := List.forall_mem_cons.mp ih
      simp [print, hitem, flat_printItems hmore]
  | @object members _ ih =>
    cases members with
    | nil =>
      rw [print]
      decide
    | cons member more =>
      obtain ⟨name, value⟩ := member
      obtain ⟨(hvalue : ∀ depth, Flat (print .compact depth value)), hmore⟩ :=
        List.forall_mem_cons.mp ih
      simp [print, hvalue, flat_printMembers hmore]

end Flatness

end Json

namespace Report

/-- Either text of a report is read back as the report. But for the blanks outside of strings the
two texts are the same, and the compact one is a single line without control characters. -/
theorem read?_layouts (report : Report) :
    (Json.read? report.pretty).bind ofJson? = some report ∧
    (Json.read? report.compact).bind ofJson? = some report ∧
    Json.condensed report.pretty = Json.condensed report.compact ∧
    Json.condensed report.compact = report.compact ∧
    (∀ c ∈ report.compact.toList, 0x20 ≤ c.toNat) ∧
    report.compact.toList.splitOn '\n' = [report.compact.toList] := by
  have hwhole := report.whole_toJson
  have hflat : Json.Flat report.compact.toList := by
    rw [compact, Json.text, String.toList_ofList]
    exact hwhole.flat 0
  have hpretty : Json.condensed report.pretty = report.compact := hwhole.condensed_text .pretty
  have hcompact : Json.condensed report.compact = report.compact := hwhole.condensed_text .compact
  refine ⟨report.read?_text .pretty, report.read?_text .compact, hpretty.trans hcompact.symm,
    hcompact, hflat, ?_⟩
  exact List.splitOn_eq_singleton hflat.newline_not_mem

end Report

end StraightLine
