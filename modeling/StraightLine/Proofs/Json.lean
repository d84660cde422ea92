import StraightLine.Json.Printer
import StraightLine.Json.Reader
import StraightLine.Proofs.Carving
import StraightLine.Report

/-!
# Reading back what was printed

In either layout the text of a value is read back as that value. A number has to
be a natural one: of any other the value keeps a text, which may be no number
at all.
-/

namespace StraightLine

namespace Json

open Text

/-- Every number in the value is a natural number. -/
inductive Whole : Json → Prop
  | null : Whole null
  | bool (value : Bool) : Whole (bool value)
  | nat (value : Nat) : Whole (nat value)
  | string (text : String) : Whole (string text)
  | array {items : List Json} (hitems : ∀ item ∈ items, Whole item) : Whole (array items)
  | object {members : List (String × Json)} (hmembers : ∀ member ∈ members, Whole member.2) :
      Whole (object members)

/-! ### Blanks -/

section Blanks

variable {blanks text rest : List Char} {c : Char}

theorem skipBlanks_append (h : ∀ c ∈ blanks, isBlank c = true) (text : List Char) :
    skipBlanks (blanks ++ text) = skipBlanks text :=
  List.dropWhile_append_of_pos h

theorem skipBlanks_cons (h : isBlank c = false) (text : List Char) :
    skipBlanks (c :: text) = c :: text :=
  (ends_cons.mpr h).dropWhile_eq

theorem Layout.isBlank_gap (layout : Layout) (depth : Nat) :
    ∀ c ∈ layout.gap depth, isBlank c = true := by
  intro c hc
  cases layout with
  | compact => cases hc
  | pretty =>
    obtain rfl | hc := List.mem_cons.mp hc
    · decide
    · rw [List.eq_of_mem_replicate hc]
      decide

theorem skipBlanks_gap (layout : Layout) (depth : Nat) (h : isBlank c = false)
    (text : List Char) : skipBlanks (layout.gap depth ++ c :: text) = c :: text := by
  rw [skipBlanks_append (layout.isBlank_gap depth), skipBlanks_cons h]

/-- A number ends where a gap begins, or else at what follows the gap. -/
theorem ends_gap (layout : Layout) (depth : Nat) (h : isNumberChar c = false)
    (text : List Char) : Ends isNumberChar (layout.gap depth ++ c :: text) := by
  cases layout with
  | compact => exact ends_cons.mpr h
  | pretty => exact ends_cons.mpr rfl

theorem Layout.exists_colon_eq (layout : Layout) :
    ∃ blanks, layout.colon = ':' :: blanks ∧ ∀ c ∈ blanks, isBlank c = true := by
  cases layout with
  | compact => exact ⟨[], rfl, List.forall_mem_nil _⟩
  | pretty => exact ⟨[' '], rfl, List.forall_mem_singleton.mpr rfl⟩

theorem readValue_append_blanks (steps : Nat) (h : ∀ c ∈ blanks, isBlank c = true)
    (text : List Char) : readValue steps (blanks ++ text) = readValue steps text := by
  cases steps with
  | zero => rw [readValue, readValue]
  | succ steps => rw [readValue, readValue, skipBlanks_append h]

end Blanks

/-! ### Numbers and strings -/

theorem isNatural_digits (n : Nat) : isNatural (Decimal.digits n) = true := by
  obtain rfl | hpos := Nat.eq_zero_or_pos n
  · rw [Decimal.digits]
    rfl
  · obtain ⟨c, cs, hdigits⟩ := List.exists_cons_of_ne_nil (Decimal.digits_ne_nil n)
    have hhead := Decimal.head?_digits hpos
    have hall : ∀ d ∈ c :: cs, d.isDigit = true :=
      fun d hd => Decimal.isDigit_of_mem_digits (hdigits ▸ hd)
    rw [hdigits] at hhead ⊢
    have hzero : c ≠ '0' := by rintro rfl; exact hhead rfl
    obtain ⟨hc, hcs⟩ := List.forall_mem_cons.mp hall
    rw [isNatural.eq_def]
    simp [hzero, hc, List.all_eq_true.mpr hcs]

theorem number?_digits (n : Nat) : number? (Decimal.digits n) = some (nat n) := by
  rw [number?.eq_def, if_pos (isNatural_digits n), Decimal.value_digits]

theorem isNumberChar_of_isDigit {c : Char} (h : c.isDigit = true) : isNumberChar c = true := by
  simp [isNumberChar, h]

theorem readValue_digits (steps n : Nat) {rest : List Char} (hrest : Ends isNumberChar rest) :
    readValue (steps + 1) (Decimal.digits n ++ rest) = some (nat n, rest) := by
  obtain ⟨c, cs, hdigits⟩ := List.exists_cons_of_ne_nil (Decimal.digits_ne_nil n)
  have hall : ∀ d ∈ Decimal.digits n, isNumberChar d = true :=
    fun d hd => isNumberChar_of_isDigit (Decimal.isDigit_of_mem_digits hd)
  have hc : c.isDigit = true := Decimal.isDigit_of_mem_digits (hdigits ▸ List.mem_cons_self)
  have hblank : isBlank c = false := isBlank_eq_false_of_isWord (isWord_of_isDigit hc)
  have hskip : skipBlanks (Decimal.digits n ++ rest) = Decimal.digits n ++ rest := by
    rw [hdigits, List.cons_append, skipBlanks_cons hblank]
  -- What begins with a digit is none of the other values.
  have hne : ∀ {d : Char} {text : List Char}, Decimal.digits n ++ rest = d :: text →
      d.isDigit = false → False := by
    intro d text heq hd
    rw [hdigits, List.cons_append, List.cons.injEq] at heq
    rw [← heq.1, hc] at hd
    cases hd
  rw [readValue, hskip]
  split
  · exact (hne ‹_› rfl).elim
  · exact (hne ‹_› rfl).elim
  · exact (hne ‹_› rfl).elim
  · exact (hne ‹_› rfl).elim
  · exact (hne ‹_› rfl).elim
  · exact (hne ‹_› rfl).elim
  · rw [takeWhile_of_ends hall hrest, dropWhile_of_ends hall hrest, number?_digits]
    rfl

theorem unit?_hexDigit {n : Nat} (h : n < 0x20) :
    unit? '0' '0' (hexDigit (n / 16)) (hexDigit (n % 16)) = some n := by
  have : ∀ m < 0x20, unit? '0' '0' (hexDigit (m / 16)) (hexDigit (m % 16)) = some m := by decide
  exact this n h

/-- Escaped or not, a character is read as one unit. -/
theorem readUnits_escape (c : Char) (text : List Char) :
    readUnits (escape c ++ text) =
      (readUnits text).map fun read => (c.toNat :: read.1, read.2) := by
  have hbind : ∀ unit : Nat,
      ((readUnits text).bind fun read => some (unit :: read.1, read.2)) =
        (readUnits text).map fun read => (unit :: read.1, read.2) := by
    intro unit
    cases readUnits text <;> rfl
  rw [escape]
  -- The seven characters with a letter of their own come first.
  iterate 7
    split
    · subst c
      exact hbind _
  split
  · rename_i hlow
    change (unit? '0' '0' (hexDigit (c.toNat / 16)) (hexDigit (c.toNat % 16))).bind _ = _
    rw [unit?_hexDigit hlow]
    exact hbind c.toNat
  · rename_i hquote hbackslash _ _ _ _ _ hlow
    rw [List.cons_append, List.nil_append, readUnits.eq_def]
    split
    · simp_all
    · simp_all
    · simp_all
    · simp_all
    · rename_i heq
      obtain ⟨rfl, rfl⟩ := List.cons.inj heq
      rw [if_neg hlow]
      exact hbind c.toNat

theorem readUnits_flatMap_escape (text rest : List Char) :
    readUnits (text.flatMap escape ++ '"' :: rest) = some (text.map Char.toNat, rest) := by
  induction text with
  | nil => rfl
  | cons c text ih =>
    rw [List.flatMap_cons, List.append_assoc, readUnits_escape, ih]
    rfl

/-- The units of whole characters are no surrogates. -/
theorem joinUnits?_toNat (text : List Char) : joinUnits? (text.map Char.toNat) = some text := by
  induction text with
  | nil => rfl
  | cons c text ih =>
    have hvalid : c.toNat < 0xD800 ∨ 0xDFFF < c.toNat := c.valid.imp_right And.left
    rw [List.map_cons, joinUnits?.eq_def]
    dsimp only
    rw [if_pos hvalid, ih, Option.map_some, Char.ofNat_toNat]

theorem readString_escape (text : String) (rest : List Char) :
    readString (text.toList.flatMap escape ++ '"' :: rest) = some (text, rest) := by
  rw [readString, readUnits_flatMap_escape, Option.bind_eq_bind, Option.bind_some]
  dsimp only
  rw [joinUnits?_toNat, Option.bind_eq_bind, Option.bind_some, String.ofList_toList]
  rfl

theorem quote_append (text : String) (rest : List Char) :
    quote text ++ rest = '"' :: (text.toList.flatMap escape ++ '"' :: rest) := by
  simp [quote]

/-! ### Values -/

section Values

variable {steps : Nat} {text rest more : List Char} {item value : Json} {items : List Json}
  {name : String} {members : List (String × Json)}

theorem readValue_quote (steps : Nat) (text : String) (rest : List Char) :
    readValue (steps + 1) (quote text ++ rest) = some (string text, rest) := by
  rw [quote_append, readValue, skipBlanks_cons rfl]
  change (readString _).bind _ = _
  rw [readString_escape]
  rfl

/-- No value begins with a closing bracket. -/
theorem readValue_of_bracket (h : skipBlanks text = ']' :: rest) : readValue steps text = none := by
  cases steps with
  | zero => rw [readValue]
  | succ steps =>
    rw [readValue, h]
    rfl

/-- Behind an item stands a closing bracket, or a comma and more items. -/
theorem readItems_of_readValue (h : readValue steps text = some (item, more)) :
    readItems (steps + 1) text =
      match skipBlanks more with
      | ']' :: rest => return ([item], rest)
      | ',' :: rest => do
        let (items, rest) ← readItems steps rest
        return (item :: items, rest)
      | _ => none := by
  rw [readItems, h]
  rfl

theorem readValue_items (h : readItems steps text = some (items, rest)) :
    readValue (steps + 1) ('[' :: text) = some (array items, rest) := by
  have hclose : ∀ back, skipBlanks text ≠ ']' :: back := by
    intro back hback
    cases steps with
    | zero =>
      rw [readItems] at h
      cases h
    | succ steps =>
      rw [readItems, readValue_of_bracket hback] at h
      cases h
  rw [readValue, skipBlanks_cons rfl]
  simp [h]

/-- Behind a member stands a closing bracket, or a comma and more members. -/
theorem readMembers_of_readValue {back : List Char}
    (htext : skipBlanks text = quote name ++ ':' :: back)
    (h : readValue steps back = some (value, more)) :
    readMembers (steps + 1) text =
      match skipBlanks more with
      | '\x7d' :: rest => return ([(name, value)], rest)
      | ',' :: rest => do
        let (members, rest) ← readMembers steps rest
        return ((name, value) :: members, rest)
      | _ => none := by
  rw [readMembers, htext, quote_append]
  change (readString _).bind _ = _
  rw [readString_escape, Option.bind_some]
  dsimp only
  rw [skipBlanks_cons rfl]
  change (readValue steps back).bind _ = _
  rw [h]
  rfl

theorem readValue_members (h : readMembers steps text = some (members, rest)) :
    readValue (steps + 1) ('\x7b' :: text) = some (object members, rest) := by
  have hclose : ∀ back, skipBlanks text ≠ '\x7d' :: back := by
    intro back hback
    cases steps with
    | zero =>
      rw [readMembers] at h
      cases h
    | succ steps =>
      rw [readMembers, hback] at h
      cases h
  rw [readValue, skipBlanks_cons rfl]
  simp [h]

end Values

/-! ### Printed values -/

/-- Two steps for each character are enough to read the value from the front of a text. -/
def ReadsBack (layout : Layout) (value : Json) : Prop :=
  ∀ (depth steps : Nat) (rest : List Char), 2 * (print layout depth value).length ≤ steps + 2 →
    Ends isNumberChar rest →
    readValue (steps + 1) (print layout depth value ++ rest) = some (value, rest)

section Printed

variable {layout : Layout} {item value : Json} {name : String}

theorem ReadsBack.readValue_append (h : ReadsBack layout value) {blanks rest : List Char}
    (hblanks : ∀ c ∈ blanks, isBlank c = true) {depth steps : Nat}
    (hsteps : 2 * (print layout depth value).length ≤ steps + 2)
    (hrest : Ends isNumberChar rest) :
    readValue (steps + 1) (blanks ++ (print layout depth value ++ rest)) = some (value, rest) := by
  rw [readValue_append_blanks _ hblanks, h depth steps rest hsteps hrest]

theorem readItems_print {more : List Json} (hitem : ReadsBack layout item)
    (hmore : ∀ next ∈ more, ReadsBack layout next) (depth outer : Nat) {steps : Nat}
    (rest : List Char)
    (hsteps : 2 * ((print layout depth item).length + (printItems layout depth more).length) ≤
      steps) :
    readItems (steps + 2) (layout.gap depth ++ (print layout depth item ++
      (printItems layout depth more ++ (layout.gap outer ++ ']' :: rest)))) =
      some (item :: more, rest) := by
  have hgap := layout.isBlank_gap depth
  induction more generalizing item steps with
  | nil =>
    have hend : Ends isNumberChar (layout.gap outer ++ ']' :: rest) :=
      ends_gap layout outer rfl rest
    rw [printItems, List.nil_append,
      readItems_of_readValue (hitem.readValue_append hgap (by omega) hend),
      skipBlanks_gap layout outer rfl]
    rfl
  | cons next more ih =>
    obtain ⟨hnext, hmore⟩ := List.forall_mem_cons.mp hmore
    simp only [printItems, List.cons_append, List.length_cons, List.length_append,
      List.append_assoc] at hsteps ⊢
    obtain ⟨fewer, rfl⟩ : ∃ fewer, steps = fewer + 1 := ⟨steps - 1, by omega⟩
    have hcomma : ∀ back, Ends isNumberChar (',' :: back) := fun back => ends_cons.mpr rfl
    rw [readItems_of_readValue (hitem.readValue_append hgap (by omega) (hcomma _)),
      skipBlanks_cons rfl]
    change (readItems (fewer + 2) _).bind _ = _
    rw [ih hnext hmore (by omega)]
    rfl

theorem readMembers_print {more : List (String × Json)} (hvalue : ReadsBack layout value)
    (hmore : ∀ next ∈ more, ReadsBack layout next.2) (depth outer : Nat) {steps : Nat}
    (rest : List Char)
    (hsteps : 2 * ((print layout depth value).length + (printMembers layout depth more).length) ≤
      steps) :
    readMembers (steps + 2) (layout.gap depth ++ (quote name ++ (layout.colon ++
      (print layout depth value ++ (printMembers layout depth more ++
        (layout.gap outer ++ '\x7d' :: rest)))))) = some ((name, value) :: more, rest) := by
  obtain ⟨blanks, hcolon, hblanks⟩ := layout.exists_colon_eq
  have hname : ∀ (name : String) (back : List Char),
      skipBlanks (layout.gap depth ++ (quote name ++ (layout.colon ++ back))) =
        quote name ++ ':' :: (blanks ++ back) := by
    intro name back
    rw [hcolon, quote_append, skipBlanks_gap layout depth rfl, ← quote_append]
    rfl
  induction more generalizing name value steps with
  | nil =>
    have hend : Ends isNumberChar (layout.gap outer ++ '\x7d' :: rest) :=
      ends_gap layout outer rfl rest
    rw [printMembers, List.nil_append,
      readMembers_of_readValue (hname name _) (hvalue.readValue_append hblanks (by omega) hend),
      skipBlanks_gap layout outer rfl]
    rfl
  | cons next more ih =>
    obtain ⟨hnext, hmore⟩ := List.forall_mem_cons.mp hmore
    simp only [printMembers, List.cons_append, List.length_cons, List.length_append,
      List.append_assoc] at hsteps ⊢
    obtain ⟨fewer, rfl⟩ : ∃ fewer, steps = fewer + 1 := ⟨steps - 1, by omega⟩
    have hcomma : ∀ back, Ends isNumberChar (',' :: back) := fun back => ends_cons.mpr rfl
    rw [readMembers_of_readValue (hname name _)
      (hvalue.readValue_append hblanks (by omega) (hcomma _)), skipBlanks_cons rfl]
    change (readMembers (fewer + 2) _).bind _ = _
    rw [ih hnext hmore (by omega)]
    rfl

theorem Whole.readsBack (layout : Layout) {value : Json} (h : Whole value) :
    ReadsBack layout value := by
  induction h with
  | null =>
    intro depth steps rest _ _
    rw [print, readValue]
    rfl
  | bool value =>
    intro depth steps rest _ _
    cases value <;> rw [print, readValue] <;> rfl
  | nat value =>
    intro depth steps rest _ hrest
    rw [print, readValue_digits steps value hrest]
  | string text =>
    intro depth steps rest _ _
    rw [print, readValue_quote]
  | @array items _ ih =>
    intro depth steps rest hsteps _
    cases items with
    | nil =>
      rw [print, readValue]
      rfl
    | cons item more =>
      obtain ⟨hitem, hmore⟩ := List.forall_mem_cons.mp ih
      simp only [print, List.cons_append, List.length_cons, List.length_append,
        List.append_assoc, List.nil_append] at hsteps ⊢
      obtain ⟨fewer, rfl⟩ : ∃ fewer, steps = fewer + 2 := ⟨steps - 2, by omega⟩
      exact readValue_items (readItems_print hitem hmore _ _ rest (by omega))
  | @object members _ ih =>
    intro depth steps rest hsteps _
    cases members with
    | nil =>
      rw [print, readValue]
      rfl
    | cons member more =>
      obtain ⟨name, value⟩ := member
      obtain ⟨(hvalue : ReadsBack layout value), hmore⟩ := List.forall_mem_cons.mp ih
      simp only [print, List.cons_append, List.length_cons, List.length_append,
        List.append_assoc, List.nil_append] at hsteps ⊢
      obtain ⟨fewer, rfl⟩ : ∃ fewer, steps = fewer + 2 := ⟨steps - 2, by omega⟩
      exact readValue_members (readMembers_print hvalue hmore _ _ rest (by omega))

/-- What is printed is read back, also with blanks behind it. -/
theorem Whole.read?_text_append (layout : Layout) {value : Json} (h : Whole value)
    {blanks : List Char} (hblanks : ∀ c ∈ blanks, isBlank c = true) :
    read? (text layout value ++ String.ofList blanks) = some value := by
  have hend : Ends isNumberChar blanks := by
    cases blanks with
    | nil => exact ends_nil
    | cons c blanks =>
      refine ends_cons.mpr ?_
      obtain rfl | rfl | rfl | rfl :=
        (isBlank_eq_true_iff c).mp (hblanks c List.mem_cons_self)
      all_goals decide
  have hread := h.readsBack layout 0
    (2 * (print layout 0 value).length + 2 * blanks.length + 1) blanks (by omega) hend
  have hskip := skipBlanks_append hblanks []
  rw [List.append_nil] at hskip
  rw [read?, text, String.toList_append, String.toList_ofList, String.toList_ofList,
    List.length_append, Nat.mul_add, hread]
  exact if_pos hskip

theorem Whole.read?_text (layout : Layout) {value : Json} (h : Whole value) :
    read? (text layout value) = some value := by
  have hread := h.read?_text_append layout (List.forall_mem_nil _)
  rwa [String.ofList_nil, String.append_empty] at hread

end Printed

end Json

theorem Location.whole_toJson (location : Location) : location.toJson.Whole := by
  refine .object fun member hmember => ?_
  simp only [List.mem_cons, List.not_mem_nil, or_false] at hmember
  obtain rfl | rfl | rfl | rfl := hmember
  · exact .string _
  · exact .nat _
  · exact .nat _
  · exact .nat _

namespace Report

theorem whole_toJson (report : Report) : report.toJson.Whole := by
  refine .object fun member hmember => ?_
  simp only [List.mem_cons, List.not_mem_nil, or_false] at hmember
  obtain rfl | rfl | rfl | rfl := hmember
  · exact .string _
  · cases report.severity
    exact .string _
  · exact .string _
  · cases report.location? with
    | none => exact .null
    | some location => exact location.whole_toJson

/-- A report that is printed is read back. -/
theorem read?_text (layout : Json.Layout) (report : Report) :
    (Json.read? (report.toJson.text layout)).bind ofJson? = some report := by
  rw [report.whole_toJson.read?_text, Option.bind_some, ofJson?_toJson]

end Report

end StraightLine
