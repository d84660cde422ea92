import StraightLine.Carving.Pattern

/-!
# Carving by the longest run

The class of the first character alone decides how far a token reaches. A word
is taken as a whole before it is looked up among the reserved words, and a row
of digits that runs into a word is no number. This carves as the table of
patterns does, with nothing to give back.
-/

namespace StraightLine

/-- How many characters at the front are of a class. -/
@[specialize] def Text.runSize (among : Char → Bool) : List Char → Nat
  | [] => 0
  | c :: cs => if among c then runSize among cs + 1 else 0

theorem Text.take_runSize (among : Char → Bool) (cs : List Char) :
    cs.take (runSize among cs) = cs.takeWhile among := by
  induction cs with
  | nil => rfl
  | cons c cs ih =>
    by_cases hc : among c
    · simp [runSize, hc, ih]
    · simp [runSize, hc]

theorem Text.runSize_eq_length_takeWhile (among : Char → Bool) (cs : List Char) :
    runSize among cs = (cs.takeWhile among).length := by
  induction cs with
  | nil => rfl
  | cons c cs ih =>
    by_cases hc : among c
    · simp [runSize, hc, ih]
    · simp [runSize, hc]

theorem Text.ofList_eq_iff (word : List Char) (text : String) :
    String.ofList word = text ↔ word = text.toList := by
  constructor
  · rintro rfl
    exact String.toList_ofList.symm
  · rintro rfl
    exact String.ofList_toList

/-- A word that is not reserved is an identifier. -/
def Kind.ofWord (word : List Char) : Kind :=
  (keyword? (String.ofList word)).getD identifier

namespace Carving

open Text

def munch : List Char → Option Carving
  | [] => none
  | c :: cs =>
    if isWhiteSpace c then
      some ⟨.whiteSpace, runSize isWhiteSpace cs + 1, Nat.succ_pos _⟩
    else if c.isAlpha then
      let size := runSize isWord cs + 1
      some ⟨Kind.ofWord ((c :: cs).take size), size, Nat.succ_pos _⟩
    else if c.isDigit then
      if (cs.dropWhile Char.isDigit).head?.any isWord then some ⟨.unrecognized, 1, Nat.one_pos⟩
      else some ⟨.number, runSize Char.isDigit cs + 1, Nat.succ_pos _⟩
    else if c = '=' then some ⟨.assignment, 1, Nat.one_pos⟩
    else if c = '(' then some ⟨.openParen, 1, Nat.one_pos⟩
    else if c = ')' then some ⟨.closeParen, 1, Nat.one_pos⟩
    else if c = '/' ∧ cs.head? = some '*' then some ⟨.openComment, 2, Nat.two_pos⟩
    else if c = '*' ∧ cs.head? = some '/' then some ⟨.closeComment, 2, Nat.two_pos⟩
    else some ⟨.unrecognized, 1, Nat.one_pos⟩

theorem isSome_munch_cons (c : Char) (cs : List Char) : (munch (c :: cs)).isSome := by
  rw [munch]
  repeat' split
  all_goals rfl

end Carving

namespace Pattern

open Text

theorem reach_one_cons (among : Char → Bool) (rest : Pattern) (before : Option Char) (c : Char)
    (cs : List Char) :
    reach (.one among :: rest) before (c :: cs) =
      if among c then (reach rest (some c) cs).map (· + 1) else none := rfl

/-- A run with nothing behind it is as long as it can be. -/
theorem reach_run (among : Char → Bool) (before : Option Char) (cs : List Char) :
    reach [.run among] before cs = some (runSize among cs) := by
  rw [reach]
  induction cs generalizing before with
  | nil => rfl
  | cons c cs ih =>
    by_cases hc : among c
    · simp [greedy, runSize, hc, ih]
    · simp [greedy, runSize, hc, reach]

/-- A run of part of a class in front of a run of the class adds nothing to it. -/
theorem reach_run_run {inner outer : Char → Bool} (h : ∀ c, inner c = true → outer c = true)
    (before : Option Char) (cs : List Char) :
    reach [.run inner, .run outer] before cs = some (runSize outer cs) := by
  rw [reach]
  induction cs generalizing before with
  | nil => rw [greedy, reach_run]
  | cons c cs ih =>
    rw [greedy]
    split
    · rename_i hc
      rw [ih]
      simp [runSize, h c hc]
    · exact reach_run outer before (c :: cs)

theorem isEdge_some_of_isWord {d : Char} (h : isWord d = true) (after : Option Char) :
    isEdge (some d) after = !after.any isWord := by
  cases hafter : after.any isWord <;> simp [isEdge, h, hafter]

/-- A row of digits that runs into a word has no edge anywhere. -/
theorem reach_run_edge {d : Char} (hd : isWord d = true) (cs : List Char) :
    reach [.run Char.isDigit, .edge] (some d) cs =
      if (cs.dropWhile Char.isDigit).head?.any isWord then none
      else some (runSize Char.isDigit cs) := by
  rw [reach]
  induction cs generalizing d with
  | nil => simp [greedy, reach, runSize, isEdge_some_of_isWord hd]
  | cons c cs ih =>
    rw [greedy]
    by_cases hc : c.isDigit
    · have hword := isWord_of_isDigit hc
      rw [if_pos hc, ih hword, List.dropWhile_cons, if_pos hc]
      by_cases hnext : (cs.dropWhile Char.isDigit).head?.any isWord
      · rw [if_pos hnext, if_pos hnext]
        simp [reach, isEdge_some_of_isWord hd, hword]
      · rw [if_neg hnext, if_neg hnext]
        simp [runSize, hc]
    · by_cases hword : isWord c <;>
        simp [hc, runSize, reach, isEdge_some_of_isWord hd, hword]

/-- A reserved word is matched only when the whole run of word characters spells it. -/
theorem reach_word_edge {word : List Char} (hword : ∀ c ∈ word, isWord c = true)
    {before : Option Char} (h : word = [] → before.any isWord = true) (cs : List Char) :
    reach (word.map symbol ++ [.edge]) before cs =
      if cs.takeWhile isWord = word then some word.length else none := by
  induction word generalizing before cs with
  | nil =>
    obtain ⟨d, rfl, hd⟩ : ∃ d, before = some d ∧ isWord d = true := by
      cases before with
      | none => simp at h
      | some d => exact ⟨d, rfl, by simpa using h⟩
    cases cs with
    | nil => simp [reach, isEdge_some_of_isWord hd]
    | cons c cs => by_cases hc : isWord c <;> simp [reach, isEdge_some_of_isWord hd, hc]
  | cons d word ih =>
    have hd := hword d (by simp)
    cases cs with
    | nil => simp [reach, symbol]
    | cons c cs =>
      rw [List.map_cons, List.cons_append, symbol, reach_one_cons]
      by_cases hc : c = d
      · subst hc
        rw [if_pos (by simp), ih (fun e he => hword e (by simp [he])) (by simp [hd]) cs]
        by_cases hrest : cs.takeWhile isWord = word <;> simp [hd, hrest]
      · have hne : (c == d) = false := by simpa using hc
        rw [hne, if_neg (by simp)]
        by_cases hcw : isWord c <;> simp [hcw, hc]

end Pattern

namespace Carving

open Text Pattern

theorem ofKind?_whiteSpace (c : Char) (cs : List Char) :
    ofKind? (c :: cs) .whiteSpace =
      if isWhiteSpace c then
        some ⟨.whiteSpace, runSize isWhiteSpace cs + 1, Nat.succ_pos _⟩
      else none := by
  simp only [ofKind?, Kind.pattern, reach_one_cons, reach_run]
  split <;> simp_all

theorem ofKind?_identifier (c : Char) (cs : List Char) :
    ofKind? (c :: cs) .identifier =
      if c.isAlpha then some ⟨.identifier, runSize isWord cs + 1, Nat.succ_pos _⟩ else none := by
  simp only [ofKind?, Kind.pattern, reach_one_cons,
    reach_run_run (fun _ h => isWord_of_isAlpha h)]
  split <;> simp_all

theorem ofKind?_number (c : Char) (cs : List Char) :
    ofKind? (c :: cs) .number =
      if c.isDigit ∧ (cs.dropWhile Char.isDigit).head?.any isWord = false then
        some ⟨.number, runSize Char.isDigit cs + 1, Nat.succ_pos _⟩
      else none := by
  simp only [ofKind?, Kind.pattern, reach_one_cons]
  by_cases hc : c.isDigit
  · rw [if_pos hc, reach_run_edge (isWord_of_isDigit hc)]
    by_cases hnext : (cs.dropWhile Char.isDigit).head?.any isWord
    · rw [if_pos hnext, if_neg (by simp [hnext])]
      rfl
    · rw [if_neg hnext, if_pos (by simp [hc, hnext])]
      rfl
  · rw [if_neg hc, if_neg (by simp [hc])]

/-- A reserved word is the whole run of word characters at the front. -/
theorem ofKind?_word (kind : Kind) (letters : List Char)
    (hkind : kind.pattern = letters.map symbol ++ [.edge])
    (hword : letters.all isWord = true) (hpos : 0 < letters.length) (source : List Char) :
    ofKind? source kind =
      if source.takeWhile isWord = letters then some ⟨kind, letters.length, hpos⟩ else none := by
  have hne : letters = [] → (none : Option Char).any isWord = true := by
    rintro rfl
    cases hpos
  obtain ⟨size, hsize⟩ : ∃ size, letters.length = size + 1 := ⟨letters.length - 1, by omega⟩
  rw [ofKind?, hkind, reach_word_edge (List.all_eq_true.mp hword) hne]
  by_cases h : source.takeWhile isWord = letters
  · rw [if_pos h, if_pos h]
    simp only [hsize]
  · rw [if_neg h, if_neg h]

theorem ofKind?_symbol (kind : Kind) (d : Char) (hkind : kind.pattern = [symbol d]) (c : Char)
    (cs : List Char) :
    ofKind? (c :: cs) kind = if c = d then some ⟨kind, 1, Nat.one_pos⟩ else none := by
  by_cases h : c = d <;> simp [ofKind?, hkind, symbol, reach, h]

theorem ofKind?_delimiter (kind : Kind) (d e : Char)
    (hkind : kind.pattern = [symbol d, symbol e]) (c : Char) (cs : List Char) :
    ofKind? (c :: cs) kind =
      if c = d ∧ cs.head? = some e then some ⟨kind, 2, Nat.two_pos⟩ else none := by
  cases cs with
  | nil => by_cases h : c = d <;> simp [ofKind?, hkind, symbol, reach, h]
  | cons b cs =>
    by_cases h : c = d <;> by_cases hb : b = e <;> simp [ofKind?, hkind, symbol, reach, h, hb]

theorem ofKind?_unrecognized (c : Char) (cs : List Char) :
    ofKind? (c :: cs) .unrecognized = some ⟨.unrecognized, 1, Nat.one_pos⟩ := rfl

theorem ofWord_eq (word : List Char) :
    Kind.ofWord word =
      if word = ['s', 't', 'a', 'r', 't'] then .start
      else if word = ['e', 'n', 'd'] then .finish
      else if word = ['p', 'r', 'i', 'n', 't'] then .print
      else .identifier := by
  have hstart : "start".toList = ['s', 't', 'a', 'r', 't'] := rfl
  have hend : "end".toList = ['e', 'n', 'd'] := rfl
  have hprint : "print".toList = ['p', 'r', 'i', 'n', 't'] := rfl
  simp only [Kind.ofWord, Kind.keyword?, ofList_eq_iff, hstart, hend, hprint]
  repeat' split
  all_goals rfl

/-- The table of patterns takes the longest run of the first character's class. -/
theorem byPattern_eq_munch (source : List Char) : byPattern source = munch source := by
  cases source with
  | nil => exact byPattern_nil
  | cons c cs =>
    rw [byPattern, munch]
    simp only [Kind.all, List.findSome?_cons, ofKind?_whiteSpace, ofKind?_identifier,
      ofKind?_number, ofKind?_unrecognized,
      ofKind?_word .start ['s', 't', 'a', 'r', 't'] rfl rfl (Nat.succ_pos _),
      ofKind?_word .finish ['e', 'n', 'd'] rfl rfl (Nat.succ_pos _),
      ofKind?_word .print ['p', 'r', 'i', 'n', 't'] rfl rfl (Nat.succ_pos _),
      ofKind?_symbol .assignment '=' rfl, ofKind?_symbol .openParen '(' rfl,
      ofKind?_symbol .closeParen ')' rfl, ofKind?_delimiter .openComment '/' '*' rfl,
      ofKind?_delimiter .closeComment '*' '/' rfl]
    by_cases hspace : isWhiteSpace c
    · simp only [if_pos hspace]
    by_cases halpha : c.isAlpha
    · have hother : ∀ d : Char, d.isAlpha = false → c ≠ d := by
        rintro d hd rfl
        simp [halpha] at hd
      have hrun : runSize isWord (c :: cs) = runSize isWord cs + 1 := by
        simp [runSize, isWord_of_isAlpha halpha]
      have htake := take_runSize isWord (c :: cs)
      have hsize := runSize_eq_length_takeWhile isWord (c :: cs)
      rw [hrun] at htake hsize
      simp only [if_neg hspace, if_pos halpha, htake, ofWord_eq, hother '=' rfl, hother '(' rfl,
        hother ')' rfl, hother '/' rfl, hother '*' rfl, if_false, false_and]
      generalize (c :: cs).takeWhile isWord = word at hsize
      by_cases hstart : word = ['s', 't', 'a', 'r', 't']
      · subst hstart
        simp [hsize]
      by_cases hend : word = ['e', 'n', 'd']
      · subst hend
        simp [hsize]
      by_cases hprint : word = ['p', 'r', 'i', 'n', 't']
      · subst hprint
        simp [hsize]
      simp only [if_neg hstart, if_neg hend, if_neg hprint]
    · have hword : ∀ word : List Char, (∃ d ∈ word.head?, d.isAlpha = true) →
          (c :: cs).takeWhile isWord ≠ word := by
        rintro word ⟨d, hd, hdalpha⟩ rfl
        by_cases hc : isWord c
        · simp [hc] at hd
          simp [hd, hdalpha] at halpha
        · simp [hc] at hd
      simp only [if_neg hspace, if_neg halpha,
        if_neg (hword ['s', 't', 'a', 'r', 't'] ⟨'s', rfl, rfl⟩),
        if_neg (hword ['e', 'n', 'd'] ⟨'e', rfl, rfl⟩),
        if_neg (hword ['p', 'r', 'i', 'n', 't'] ⟨'p', rfl, rfl⟩)]
      by_cases hdigit : c.isDigit
      · have hother : ∀ d : Char, d.isDigit = false → c ≠ d := by
          rintro d hd rfl
          simp [hdigit] at hd
        simp only [hother '=' rfl, hother '(' rfl, hother ')' rfl, hother '/' rfl,
          hother '*' rfl, if_false, false_and, hdigit, if_true, true_and]
        cases (cs.dropWhile Char.isDigit).head?.any isWord <;> rfl
      · simp only [if_neg hdigit, if_neg fun h : c.isDigit = true ∧ _ => hdigit h.1]
        repeat' split
        all_goals simp_all

end Carving

end StraightLine
