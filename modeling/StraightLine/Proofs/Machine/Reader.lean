import StraightLine.Proofs.Decimal
import StraightLine.Proofs.Position
import Mathlib.Data.List.Infix

/-!
# Reading listings

A listing is read line by line, as an assembler would see it. Comments, blank
lines, directives and labels give no instruction. Any other line is cut at its
commas into fields and each field at its blanks into words; a line that then is
none of the known instructions is refused, and so is a numeral that an
assembler reads in another base or that does not fit in a word.
-/

namespace StraightLine

namespace Decimal

def natural? (text : List Char) : Option Nat :=
  if text ≠ [] ∧ text.all Char.isDigit = true ∧ (text.head? = some '0' → text = ['0']) then
    some (value text)
  else none

theorem natural?_digits (n : Nat) : natural? (digits n) = some n := by
  have h := shortest_digits n
  rw [natural?, if_pos ⟨h.ne_nil, List.all_eq_true.mpr h.isDigit, h.zero⟩, value_digits]

def word? : List Char → Option Int32
  | '-' :: text => (natural? text).bind fun n => if n ≤ 2147483648 then some (.ofInt (-n)) else none
  | text => (natural? text).bind fun n => if n < 4294967296 then some (.ofNat n) else none

theorem word?_digits {n : Nat} (h : n < 4294967296) : word? (digits n) = some (.ofNat n) := by
  obtain ⟨c, text, hdigits⟩ := List.exists_cons_of_ne_nil (digits_ne_nil n)
  have hread := natural?_digits n
  rw [hdigits] at hread ⊢
  have hc : c ≠ '-' := by
    rintro rfl
    have hdigit : '-'.isDigit = true := isDigit_of_mem_digits (hdigits ▸ List.mem_cons_self)
    cases hdigit
  rw [word?, hread, Option.bind_some, if_pos h]
  intro _ hminus
  exact hc (List.head_eq_of_cons_eq hminus)

theorem word?_numeral (v : Int32) : word? (numeral v.toInt) = some v := by
  have hlow := v.le_toInt
  have hhigh := v.toInt_lt
  rw [numeral]
  split
  · have hvalue : -(v.toInt.natAbs : Int) = v.toInt := by omega
    rw [word?, natural?_digits, Option.bind_some, if_pos (by omega), hvalue, Int32.ofInt_toInt]
  · have hvalue : (v.toInt.natAbs : Int) = v.toInt := by omega
    rw [word?_digits (by omega), ← Int32.ofInt_eq_ofNat, hvalue, Int32.ofInt_toInt]

theorem ofValue_injective {v w : Int32} (h : ofValue v = ofValue w) : v = w := by
  have hread := word?_numeral v
  rw [String.ofList_injective h, word?_numeral] at hread
  exact (Option.some_inj.mp hread).symm

end Decimal

namespace Assembly

def words (text : List Char) : List String :=
  ((text.splitOn ' ').filter (· ≠ [])).map String.ofList

theorem words_append (front back : List Char) :
    words (front ++ ' ' :: back) = words front ++ words back := by
  rw [words, List.splitOn_append_cons_self, List.filter_append, List.map_append]
  rfl

@[simp] theorem words_cons_blank (text : List Char) : words (' ' :: text) = words text :=
  words_append [] text

theorem words_of_not_mem {text : List Char} (hne : text ≠ []) (h : ' ' ∉ text) :
    words text = [String.ofList text] := by
  rw [words, List.splitOn_eq_singleton h]
  simp [hne]

def fields (text : List Char) : List (List String) :=
  (text.splitOn ',').map words

theorem fields_append (front back : List Char) :
    fields (front ++ ',' :: back) = fields front ++ fields back := by
  rw [fields, List.splitOn_append_cons_self, List.map_append]
  rfl

theorem fields_of_not_mem {text : List Char} (h : ',' ∉ text) : fields text = [words text] := by
  rw [fields, List.splitOn_eq_singleton h]
  rfl

def Register.read? : String → Option Register
  | "eax" => some eax
  | "esi" => some esi
  | "edi" => some edi
  | _ => none

def place? (text : List Char) : Option Nat := do
  let back ← ['[', 'r', 'b', 'p', '-'].isPrefixOf? text
  let numeral ← [']'].isSuffixOf? back
  Decimal.natural? numeral

def Operand.read? : List String → Option Operand
  | ["DWORD", "PTR", place] => (place? place.toList).map .slot
  | [value] => (Decimal.word? value.toList).map .immediate
  | _ => none

def Instruction.fixed : List (List (List String) × Instruction) :=
  [([["push", "rbp"]], .saveBase), ([["mov", "rbp"], ["rsp"]], .setBase),
   ([["mov", "edi"], ["OFFSET", "FLAT:.LC0"]], .loadFormat), ([["call", "printf"]], .callPrint),
   ([["leave"]], .leave), ([["ret"]], .ret)]

def Instruction.withNumeral? : List (List String) → Option Instruction
  | [["sub", "rsp"], [size]] => (Decimal.natural? size.toList).map .reserve
  | [["mov", "DWORD", "PTR", place], ["eax"]] => (place? place.toList).map .store
  | [["mov", register], operand] => do
    let register ← Register.read? register
    let operand ← Operand.read? operand
    return .load register operand
  | _ => none

def Instruction.read? (fields : List (List String)) : Option Instruction :=
  withNumeral? fields <|> fixed.lookup fields

/-- Directives begin with a full stop, and a label is a word that ends with a colon. -/
def isSilent : List (List String) → Bool
  | [[]] => true
  | [[word]] => word.toList.head? = some '.' || word.toList.getLast? = some ':'
  | (word :: _) :: _ => word.toList.head? = some '.'
  | _ => false

def readLine? (text : List Char) : Option (List Instruction) :=
  if text.head? = some '#' || isSilent (fields text) then some []
  else (Instruction.read? (fields text)).map fun instruction => [instruction]

def readLines? : List (List Char) → Option (List Instruction)
  | [] => some []
  | line :: rest => do
    let first ← readLine? line
    let more ← readLines? rest
    return first ++ more

def read? (listing : String) : Option (List Instruction) :=
  readLines? (listing.toList.splitOn '\n')

def placeText (address : Nat) : List Char :=
  ['[', 'r', 'b', 'p', '-'] ++ Decimal.digits address ++ [']']

theorem place?_placeText (address : Nat) : place? (placeText address) = some address := by
  have hfront : ['[', 'r', 'b', 'p', '-'].isPrefixOf? (placeText address) =
      some (Decimal.digits address ++ [']']) :=
    List.isPrefixOf?_eq_some_iff_append_eq.mpr rfl
  have hback : [']'].isSuffixOf? (Decimal.digits address ++ [']']) =
      some (Decimal.digits address) :=
    List.isSuffixOf?_eq_some_iff_append_eq.mpr rfl
  rw [place?, hfront, Option.bind_eq_bind, Option.bind_some, hback, Option.bind_some,
    Decimal.natural?_digits]

theorem not_mem_numeral {c : Char} (h : c.isDigit = false) (hminus : c ≠ '-') (n : Int) :
    c ∉ Decimal.numeral n := by
  rw [Decimal.numeral]
  split
  · rw [List.mem_cons, not_or]
    exact ⟨hminus, Decimal.not_mem_digits h _⟩
  · exact Decimal.not_mem_digits h _

theorem toList_slotText (address : Nat) :
    (slotText address).toList =
      "DWORD PTR".toList ++ ' ' :: placeText address := by
  have htext : slotText address = "DWORD PTR [rbp-" ++ Decimal.ofNat address ++ "]" := rfl
  simp [htext, placeText, Decimal.ofNat]

theorem not_mem_slotText {c : Char} (h : c.isDigit = false)
    (hfixed : c ∉ "DWORD PTR [rbp-]".toList) (address : Nat) : c ∉ (slotText address).toList := by
  have hdigits := Decimal.not_mem_digits h address
  rw [toList_slotText, placeText]
  simp_all

theorem words_slotText (address : Nat) :
    words (slotText address).toList =
      ["DWORD", "PTR", String.ofList (placeText address)] := by
  have hdigits : ' ' ∉ Decimal.digits address := Decimal.not_mem_digits rfl address
  have hplace : ' ' ∉ placeText address := by simp [placeText, hdigits]
  rw [toList_slotText, words_append, words_of_not_mem (by simp [placeText]) hplace]
  rfl

theorem not_mem_operand {c : Char} (h : c.isDigit = false)
    (hfixed : c ∉ "-DWORD PTR [rbp-]".toList) (operand : Operand) : c ∉ operand.text.toList := by
  cases operand with
  | immediate value =>
    rw [Operand.text, Decimal.ofValue, String.toList_ofList]
    exact not_mem_numeral h (by rintro rfl; exact hfixed (by decide)) _
  | slot address => exact not_mem_slotText h (fun hmem => hfixed (List.mem_cons_of_mem _ hmem)) _

theorem words_immediate (value : Int32) :
    words (Operand.immediate value).text.toList = [Decimal.ofValue value] := by
  rw [words_of_not_mem]
  · rw [String.ofList_toList]
    rfl
  · rw [Operand.text, Decimal.ofValue, String.toList_ofList, Decimal.numeral]
    split
    · exact List.cons_ne_nil _ _
    · exact Decimal.digits_ne_nil _
  · rw [Operand.text, Decimal.ofValue, String.toList_ofList]
    exact not_mem_numeral rfl (by decide) _

theorem fields_mov {target source : List Char} (htarget : ',' ∉ target) (hsource : ',' ∉ source) :
    fields ("    mov ".toList ++ target ++ ", ".toList ++ source) =
      ["mov" :: words target, words source] := by
  have hsplit : "    mov ".toList ++ target ++ ", ".toList ++ source =
      ("    mov".toList ++ ' ' :: target) ++ ',' :: ' ' :: source := by simp
  rw [hsplit, fields_append, fields_of_not_mem (by simp [htarget]),
    fields_of_not_mem (by simp [hsource]), words_append, words_cons_blank]
  rfl

theorem Operand.read?_words (operand : Operand) :
    Operand.read? (words operand.text.toList) = some operand := by
  cases operand with
  | immediate value =>
    rw [words_immediate, Operand.read?, Decimal.ofValue, String.toList_ofList,
      Decimal.word?_numeral]
    rfl
  | slot address =>
    rw [Operand.text, words_slotText, Operand.read?, String.toList_ofList, place?_placeText]
    rfl

theorem fields_reserve (size : Nat) :
    fields (Line.code (.reserve size)).text.toList = [["sub", "rsp"], [Decimal.ofNat size]] := by
  have hdigits : ' ' ∉ Decimal.digits size := Decimal.not_mem_digits rfl size
  have hcomma : ',' ∉ Decimal.digits size := Decimal.not_mem_digits rfl size
  have htext : (Line.code (.reserve size)).text.toList =
      "    sub rsp".toList ++ ',' :: ' ' :: Decimal.digits size := by
    simp [Line.text, Instruction.text, Decimal.ofNat]
  have hback : fields (' ' :: Decimal.digits size) = [[Decimal.ofNat size]] := by
    rw [fields_of_not_mem (by simp [hcomma]), words_cons_blank,
      words_of_not_mem (Decimal.digits_ne_nil size) hdigits]
    rfl
  rw [htext, fields_append, hback]
  rfl

theorem fields_load (register : Register) (operand : Operand) :
    fields (Line.code (.load register operand)).text.toList =
      [["mov", register.text], words operand.text.toList] := by
  have htext : (Line.code (.load register operand)).text.toList =
      "    mov ".toList ++ register.text.toList ++ ", ".toList ++ operand.text.toList := by
    simp [Line.text, Instruction.text]
  have hregister : words register.text.toList = [register.text] ∧ ',' ∉ register.text.toList := by
    cases register <;> decide
  rw [htext, fields_mov hregister.2 (not_mem_operand rfl (by decide) operand), hregister.1]

theorem fields_store (address : Nat) :
    fields (Line.code (.store address)).text.toList =
      [["mov", "DWORD", "PTR", String.ofList (placeText address)], ["eax"]] := by
  have htext : (Line.code (.store address)).text.toList =
      "    mov ".toList ++ (slotText address).toList ++ ", ".toList ++ "eax".toList := by
    simp [Line.text, Instruction.text]
  rw [htext, fields_mov (not_mem_slotText rfl (by decide) address) (by decide), words_slotText]
  rfl

theorem readLine?_of_withNumeral? {instruction : Instruction} {found : List (List String)}
    (hfields : fields (Line.code instruction).text.toList = found)
    (hsilent : isSilent found = false)
    (hread : Instruction.withNumeral? found = some instruction) :
    readLine? (Line.code instruction).text.toList = some [instruction] := by
  have hhead : (Line.code instruction).text.toList.head? = some ' ' := by simp [Line.text]
  rw [readLine?, hhead, hfields, hsilent, Instruction.read?, hread]
  rfl

theorem readLine?_code (instruction : Instruction) :
    readLine? (Line.code instruction).text.toList = some [instruction] := by
  cases instruction with
  | reserve size =>
    refine readLine?_of_withNumeral? (fields_reserve size) rfl ?_
    rw [Instruction.withNumeral?, Decimal.ofNat, String.toList_ofList, Decimal.natural?_digits]
    rfl
  | load register operand =>
    refine readLine?_of_withNumeral? (fields_load register operand) rfl ?_
    have hread : Register.read? register.text = some register := by cases register <;> rfl
    rw [Instruction.withNumeral?, hread, operand.read?_words]
    rfl
  | store address =>
    refine readLine?_of_withNumeral? (fields_store address) rfl ?_
    rw [Instruction.withNumeral?, String.toList_ofList, place?_placeText]
    rfl
  | saveBase => decide
  | setBase => decide
  | loadFormat => decide
  | callPrint => decide
  | leave => decide
  | ret => decide

theorem readLine?_comment (text : String) :
    readLine? (Line.comment text).text.toList = some [] := by
  have hhead : (Line.comment text).text.toList.head? = some '#' := by simp [Line.text]
  rw [readLine?, hhead]
  rfl

theorem newline_not_mem_code (instruction : Instruction) :
    '\n' ∉ (Line.code instruction).text.toList := by
  cases instruction with
  | reserve size =>
    have hdigits : '\n' ∉ Decimal.digits size := Decimal.not_mem_digits rfl size
    simp [Line.text, Instruction.text, Decimal.ofNat, hdigits]
  | load register operand =>
    have hregister : '\n' ∉ register.text.toList := by cases register <;> decide
    have hoperand : '\n' ∉ operand.text.toList := not_mem_operand rfl (by decide) operand
    simp [Line.text, Instruction.text, hregister, hoperand]
  | store address =>
    have hslot : '\n' ∉ (slotText address).toList := not_mem_slotText rfl (by decide) address
    simp [Line.text, Instruction.text, hslot]
  | saveBase => decide
  | setBase => decide
  | loadFormat => decide
  | callPrint => decide
  | leave => decide
  | ret => decide

def Line.instructions : Line → List Instruction
  | code instruction => [instruction]
  | _ => []

/-- A line that is read back as it is meant. A comment is one unless its text breaks the line. -/
structure Line.ReadsBack (line : Line) : Prop where
  reads : readLine? line.text.toList = some line.instructions
  unbroken : '\n' ∉ line.text.toList

theorem Line.readsBack_code (instruction : Instruction) : (code instruction).ReadsBack :=
  ⟨readLine?_code instruction, newline_not_mem_code instruction⟩

theorem Line.readsBack_comment {text : String} (h : '\n' ∉ text.toList) :
    (comment text).ReadsBack :=
  ⟨readLine?_comment text, by simp [Line.text, h]⟩

theorem splitOn_join {texts : List String} (h : ∀ text ∈ texts, '\n' ∉ text.toList) :
    (String.join (texts.map fun text => text ++ "\n")).toList.splitOn '\n' =
      texts.map String.toList ++ [[]] := by
  rw [Text.toList_join]
  apply Text.splitOn_unlines
  intro line hline
  obtain ⟨text, htext, rfl⟩ := List.mem_map.mp hline
  exact h text htext

theorem readLines?_append_nil {lines : List Line} (h : ∀ line ∈ lines, line.ReadsBack) :
    readLines? (lines.map (fun line => line.text.toList) ++ [[]]) =
      some (lines.flatMap Line.instructions) := by
  induction lines with
  | nil => decide
  | cons line rest ih =>
    have hline := (h line List.mem_cons_self).reads
    have hrest := ih fun other hother => h other (List.mem_cons_of_mem _ hother)
    rw [List.map_cons, List.cons_append, readLines?, hline, hrest]
    rfl

/-- Cut at its line feeds, a listing is its lines and nothing behind the last line feed. -/
theorem splitOn_listing {lines : List Line} (h : ∀ line ∈ lines, line.ReadsBack) :
    (listing lines).toList.splitOn '\n' = lines.map (fun line => line.text.toList) ++ [[]] := by
  have hunbroken : ∀ text ∈ lines.map Line.text, '\n' ∉ text.toList := by
    intro text htext
    obtain ⟨line, hline, rfl⟩ := List.mem_map.mp htext
    exact (h line hline).unbroken
  have hsplit := splitOn_join hunbroken
  rwa [List.map_map, List.map_map] at hsplit

/-- Reading a listing gives back the instructions it was made of. -/
theorem read?_listing {lines : List Line} (h : ∀ line ∈ lines, line.ReadsBack) :
    read? (listing lines) = some (lines.flatMap Line.instructions) := by
  rw [read?, splitOn_listing h]
  exact readLines?_append_nil h

end Assembly

end StraightLine
