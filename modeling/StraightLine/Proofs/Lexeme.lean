import StraightLine.Lexeme
import Mathlib.Data.List.TakeWhile

/-!
# Texts of lexemes

In either mode the kind of a token says what its text looks like. Nothing is
said here of white space and of what is not recognized.
-/

namespace StraightLine

open Text

def Kind.Fits (text : List Char) : Kind → Prop
  | .start => text = "start".toList
  | .finish => text = "end".toList
  | .print => text = "print".toList
  | .assignment => text = ['=']
  | .openParen => text = ['(']
  | .closeParen => text = [')']
  | .openComment => text = ['/', '*']
  | .closeComment => text = ['*', '/']
  | .identifier => isIdentifier text = true ∧ keyword? (String.ofList text) = none
  | .number => text ≠ [] ∧ ∀ c ∈ text, c.isDigit = true
  | .whiteSpace | .unrecognized => True

namespace Kind

theorem fits_of_keyword? {text : List Char} {kind : Kind}
    (h : keyword? (String.ofList text) = some kind) : kind.Fits text := by
  obtain ⟨hword, rfl⟩ | ⟨hword, rfl⟩ | ⟨hword, rfl⟩ := (keyword?_eq_some_iff _ _).mp h
  · exact (ofList_eq_iff _ _).mp hword
  · exact (ofList_eq_iff _ _).mp hword
  · exact (ofList_eq_iff _ _).mp hword

theorem fits_ofWord {word : List Char} (h : isIdentifier word = true) :
    (ofWord word).Fits word := by
  rw [ofWord]
  cases hword : keyword? (String.ofList word) with
  | none => exact ⟨h, hword⟩
  | some kind => exact fits_of_keyword? hword

theorem fits_ofText {text : List Char} (hne : text ≠ []) : (ofText text).Fits text := by
  rw [ofText]
  split
  · rename_i h
    exact fits_of_keyword? h
  · rename_i hword
    repeat' split
    · rename_i h
      exact ⟨h, hword⟩
    · assumption
    · assumption
    · assumption
    · assumption
    · assumption
    · trivial
    · rename_i h
      exact ⟨hne, List.all_eq_true.mp h⟩
    · trivial

end Kind

namespace Carving

theorem fits_byScan {source : List Char} {carving : Carving} (h : byScan source = some carving) :
    carving.kind.Fits (carving.text source) := by
  cases source with
  | nil => cases h
  | cons c cs =>
    cases h
    exact Kind.fits_ofText (text_ne_nil _ (List.cons_ne_nil c cs))

theorem mem_take_runSize {among : Char → Bool} {c d : Char} {cs : List Char}
    (h : d ∈ (c :: cs).take (runSize among cs + 1)) : d = c ∨ among d = true := by
  rw [List.take_succ_cons, take_runSize] at h
  rcases List.mem_cons.mp h with rfl | h
  · exact .inl rfl
  · exact .inr (List.mem_takeWhile_imp h)

theorem isIdentifier_take_runSize {c : Char} (hc : c.isAlpha = true) (cs : List Char) :
    isIdentifier ((c :: cs).take (runSize isWord cs + 1)) = true := by
  rw [List.take_succ_cons, take_runSize, isIdentifier, hc, Bool.true_and, List.all_eq_true]
  intro d hd
  exact List.mem_takeWhile_imp hd

theorem take_two_of_head? {c d e : Char} {cs : List Char} (h : c = d ∧ cs.head? = some e) :
    (c :: cs).take 2 = [d, e] := by
  obtain ⟨rfl, hhead⟩ := h
  obtain ⟨rest, rfl⟩ := List.head?_eq_some_iff.mp hhead
  rfl

theorem fits_munch {source : List Char} {carving : Carving} (h : munch source = some carving) :
    carving.kind.Fits (carving.text source) := by
  cases source with
  | nil => cases h
  | cons c cs =>
    rw [munch] at h
    -- white space, words, numbers, symbols and delimiters, in the order of the definition
    split at h
    · cases h
      trivial
    split at h
    · rename_i hc
      cases h
      exact Kind.fits_ofWord (isIdentifier_take_runSize hc cs)
    split at h
    · rename_i hc
      split at h
      · cases h
        trivial
      · cases h
        refine ⟨List.cons_ne_nil _ _, ?_⟩
        intro d hd
        rcases mem_take_runSize hd with rfl | hd
        · exact hc
        · exact hd
    split at h
    · rename_i hc
      cases h
      exact congrArg (fun d => [d]) hc
    split at h
    · rename_i hc
      cases h
      exact congrArg (fun d => [d]) hc
    split at h
    · rename_i hc
      cases h
      exact congrArg (fun d => [d]) hc
    split at h
    · rename_i hc
      cases h
      exact take_two_of_head? hc
    split at h
    · rename_i hc
      cases h
      exact take_two_of_head? hc
    · cases h
      trivial

end Carving

theorem Mode.fits_carve {mode : Mode} {source : List Char} {carving : Carving}
    (h : mode.carve source = some carving) : carving.kind.Fits (carving.text source) := by
  cases mode with
  | pattern => exact Carving.fits_munch h
  | scan => exact Carving.fits_byScan h

namespace Lexeme

theorem fits_of_tokens {mode : Mode} {offset : Nat} {source : List Char} {found : List Lexeme}
    (h : tokens mode offset source = .ok found) :
    ∀ token ∈ found, token.kind.Fits token.source.toList := by
  fun_induction tokens mode offset source generalizing found with
  | case1 =>
    cases h
    nofun
  | case2 => cases h
  | case3 offset c cs carving hcarve text stop =>
    rename_i ih
    obtain ⟨rest, hrest⟩ := exists_tokens_eq_ok mode stop (carving.rest (c :: cs))
    rw [hrest] at h
    cases h
    intro token htoken
    rcases List.mem_cons.mp htoken with rfl | htoken
    · rw [String.toList_ofList]
      exact Mode.fits_carve hcarve
    · exact ih hrest token htoken

theorem fits_of_analyze {mode : Mode} {source : String} {lexemes : List Lexeme}
    (h : analyze mode source = .ok lexemes) :
    ∀ lexeme ∈ lexemes, lexeme.kind.Fits lexeme.source.toList := by
  obtain ⟨found, hfound⟩ := exists_tokens_eq_ok mode 0 source.toList
  rw [analyze, hfound] at h
  cases h
  intro lexeme hlexeme
  exact fits_of_tokens hfound lexeme ((visible_sublist false found).mem hlexeme)

end Lexeme

/-- Words and numbers stay on one line. -/
theorem Kind.newline_not_mem_of_fits {text : List Char} {kind : Kind} (h : kind.Fits text)
    (hkind : kind = .identifier ∨ kind = .number) : '\n' ∉ text := by
  intro hmem
  rcases hkind with rfl | rfl
  · obtain ⟨c, rest, rfl, hc, hrest⟩ := (isIdentifier_eq_true_iff text).mp h.1
    rcases List.mem_cons.mp hmem with rfl | hmem
    · cases hc
    · cases hrest _ hmem
  · cases h.2 _ hmem

end StraightLine
