import StraightLine.Proofs.Lexeme.Comment
import StraightLine.Proofs.Tools

/-!
# Delimiters in either mode

The delimiters of a source are found by reading it from the left, without
regard to any other token: in neither mode does a token take up a star or a
slash that belongs to a delimiter. So both modes find the same delimiters, and
wherever both have a boundary between tokens they agree whether it is inside a
comment.
-/

namespace StraightLine

open Text

namespace Lexeme

open Mode

variable {mode : Mode} {offset : Nat} {text rest : List Char} {kind : Kind}

/-- The delimiters of a text that begins at the given offset. -/
def delimiters (offset : Nat) : List Char → List Lexeme
  | '/' :: '*' :: rest => place offset ['/', '*'] .openComment :: delimiters (offset + 2) rest
  | '*' :: '/' :: rest => place offset ['*', '/'] .closeComment :: delimiters (offset + 2) rest
  | c :: rest => delimiters (offset + c.utf8Size) rest
  | [] => []

theorem delimiters_cons {c : Char} {cs : List Char} (h : Carving.isDelimiter c cs.head? = false)
    (offset : Nat) : delimiters offset (c :: cs) = delimiters (offset + c.utf8Size) cs := by
  rw [Bool.eq_false_iff, ne_eq, Carving.isDelimiter_eq_true_iff] at h
  obtain ⟨hopening, hclosing⟩ := not_or.mp h
  rw [delimiters]
  · rintro rest rfl rfl
    exact hopening ⟨rfl, rfl⟩
  · rintro rest rfl rfl
    exact hclosing ⟨rfl, rfl⟩

theorem delimiters_append_of_forall (h : ∀ c ∈ text, c ≠ '/' ∧ c ≠ '*') (offset : Nat)
    (rest : List Char) :
    delimiters offset (text ++ rest) = delimiters (offset + byteSize text) rest := by
  induction text generalizing offset with
  | nil => rfl
  | cons c text ih =>
    obtain ⟨hc, htext⟩ := List.forall_mem_cons.mp h
    rw [List.cons_append, delimiters_cons, ih htext, byteSize_cons, Nat.add_assoc]
    rw [Carving.isDelimiter, beq_eq_false_iff_ne.mpr hc.1, beq_eq_false_iff_ne.mpr hc.2]
    rfl

/-- The first token of a text is its first delimiter, or has no part in one. -/
theorem delimiters_append (h : mode.Takes text rest kind) (offset : Nat) :
    delimiters offset (text ++ rest) =
      (if kind.isDelimiter then [place offset text kind] else []) ++
        delimiters (offset + byteSize text) rest := by
  rcases hdelimiter : kind.isDelimiter with _ | _
  · obtain htext | ⟨c, rfl, hc⟩ := h.undelimited hdelimiter
    · exact delimiters_append_of_forall htext offset rest
    · exact delimiters_cons hc offset
  · cases kind with
    | openComment =>
      obtain rfl : text = ['/', '*'] := h.fits
      rfl
    | closeComment =>
      obtain rfl : text = ['*', '/'] := h.fits
      rfl
    | _ => cases hdelimiter

theorem filter_cut (mode : Mode) (offset : Nat) (source : List Char) :
    (cut mode offset source).filter (·.kind.isDelimiter) = delimiters offset source := by
  induction source using mode.takes_induction generalizing offset with
  | nil =>
    rw [cut_nil]
    rfl
  | @step text rest kind htakes ih =>
    rw [cut_append htakes, delimiters_append htakes, ← ih, List.filter_cons]
    change (if kind.isDelimiter = true then _ else _) = _
    split
    · rfl
    · rfl

/-- The tokens in front of a boundary are those that stop there or before. -/
theorem filter_stop_le {source : List Char} {front back : List Lexeme}
    (h : cut mode 0 source = front ++ back) :
    (cut mode 0 source).filter (fun token => token.span.stop ≤ byteSize (texts front)) = front := by
  have htiles := tiles_cut mode 0 source
  rw [h] at htiles ⊢
  have hfront : ∀ token ∈ front, token.span.stop ≤ byteSize (texts front) := by
    intro token htoken
    obtain ⟨before, behind, rfl⟩ := List.append_of_mem htoken
    have hspans := htiles.spans
    rw [List.append_assoc, List.cons_append] at hspans
    obtain ⟨hstart, hstop⟩ := hspans.span_eq
    rw [texts_append, texts_cons, byteSize_append, byteSize_append]
    omega
  have hback : ∀ token ∈ back, ¬ token.span.stop ≤ byteSize (texts front) := by
    intro token htoken
    have hsize := byteSize_source_pos (htiles.ne_empty token (List.mem_append_right front htoken))
    obtain ⟨before, behind, rfl⟩ := List.append_of_mem htoken
    have hspans := htiles.spans
    rw [← List.append_assoc] at hspans
    obtain ⟨hstart, hstop⟩ := hspans.span_eq
    rw [texts_append, byteSize_append] at hstart
    omega
  rw [List.filter_append, List.filter_eq_self.mpr (by simpa using hfront),
    List.filter_eq_nil_iff.mpr (by simpa using hback), List.append_nil]

theorem isOutside_filter (found : List Lexeme) :
    isOutside (found.filter (·.kind.isDelimiter)) = isOutside found := by
  induction found using List.reverseRecOn with
  | nil => rfl
  | append_singleton found token ih =>
    rw [List.filter_append, List.filter_singleton, isOutside_concat]
    cases hkind : token.kind.isDelimiter with
    | true =>
      refine (isOutside_concat _ token).trans ?_
      rw [hkind]
      rfl
    | false => exact (congrArg isOutside (List.append_nil _)).trans ih

end Lexeme

namespace Analyzer

open Lexeme

variable {analyzer : Analyzer}

/-- The analyzer as it is when it has passed over the tokens. -/
def after (analyzer : Analyzer) (tokens : List Lexeme) : Analyzer :=
  tokens.foldl (fun analyzer token => (analyzer.pass [] token).2) analyzer

/-- There is a boundary between tokens of the source at the offset, and the analyzer is as it is when
it comes there. -/
def StandsAt (analyzer : Analyzer) (source : List Char) (offset : Nat) : Prop :=
  ∃ front back, tokens analyzer.mode 0 source = .ok (front ++ back) ∧
    offset = byteSize (texts front) ∧ analyzer = (fresh analyzer.mode).after front

theorem pass_snd (analyzer : Analyzer) (kept : List Lexeme) (token : Lexeme) :
    (analyzer.pass kept token).2 = (analyzer.pass [] token).2 := by
  rw [pass, pass]
  split <;> rfl

theorem inComment_pass (analyzer : Analyzer) (kept : List Lexeme) (token : Lexeme) :
    (analyzer.pass kept token).2.inComment =
      if token.kind.isDelimiter then token.kind == .openComment else analyzer.inComment := by
  rw [pass]
  cases token.kind <;> rfl

theorem inComment_after (mode : Mode) (tokens : List Lexeme) :
    ((fresh mode).after tokens).inComment = !isOutside tokens := by
  induction tokens using List.reverseRecOn with
  | nil => rfl
  | append_singleton tokens token ih =>
    rw [after, List.foldl_append, isOutside_concat]
    refine (inComment_pass _ [] token).trans ?_
    rw [← after, ih]
    cases token.kind <;> rfl

theorem scan_append {text rest : List Char} {kind : Kind}
    (h : analyzer.mode.Takes text rest kind) (offset : Nat) (kept : List Lexeme) :
    analyzer.scan offset kept (text ++ rest) =
      (analyzer.pass kept (place offset text kind)).2.scan (offset + byteSize text)
        (analyzer.pass kept (place offset text kind)).1 rest := by
  obtain ⟨c, cs, carving, hsource, hcarve, rfl, htext, hrest⟩ := h.exists_carving
  rw [hsource, scan, hcarve]
  simp only [htext, hrest]
  rfl

/-- The analysis of a text comes to every boundary, and goes on from there. -/
theorem exists_scan_after {front back : List Lexeme} {source : List Char} {offset : Nat}
    (h : cut analyzer.mode offset source = front ++ back) (kept : List Lexeme) :
    ∃ more, analyzer.scan offset kept source =
      (analyzer.after front).scan (offset + byteSize (texts front)) more (texts back) := by
  induction front generalizing analyzer source offset kept with
  | nil =>
    have htexts := (tiles_cut analyzer.mode offset source).texts_eq
    rw [h] at htexts
    exact ⟨kept, by rw [← htexts]; rfl⟩
  | cons token front ih =>
    have htiles := tiles_cut analyzer.mode offset source
    rw [h] at htiles
    obtain ⟨text, rest, kind, rfl, htakes, rfl, hrest⟩ := htiles.of_cons
    have hcut : cut (analyzer.pass kept (place offset text kind)).2.mode (offset + byteSize text)
        rest = front ++ back := by
      rw [mode_pass]
      exact (tiles_iff.mp hrest).symm
    obtain ⟨more, hmore⟩ := ih hcut (analyzer.pass kept (place offset text kind)).1
    refine ⟨more, ?_⟩
    rw [scan_append htakes, hmore, texts_cons, byteSize_append, place, String.toList_ofList,
      ← place, Nat.add_assoc, pass_snd]
    rfl

theorem StandsAt.inComment_eq {source : List Char} {offset : Nat}
    (h : analyzer.StandsAt source offset) :
    analyzer.inComment = !isOutside
      ((delimiters 0 source).filter fun token => token.span.stop ≤ offset) := by
  obtain ⟨front, back, hfound, rfl, hafter⟩ := h
  have hcut := (tokens_eq_ok_iff.mp hfound).symm
  rw [hafter, inComment_after, ← filter_cut analyzer.mode, List.filter_filter]
  simp only [Bool.and_comm]
  rw [← List.filter_filter, filter_stop_le hcut, isOutside_filter]

/-- The two modes find the same delimiters in a source, at the same places and in the same order.
At every boundary that they have in common, analyzers of either mode agree whether they are inside
a comment, and it is from there that the analysis of each goes on. -/
theorem delimiters_in_both_modes (source : String) :
    (∃ found other, tokens .pattern 0 source.toList = .ok found ∧
      tokens .scan 0 source.toList = .ok other ∧
      found.filter (·.kind.isDelimiter) = other.filter (·.kind.isDelimiter)) ∧
    (∀ offset (one other : Analyzer), one.StandsAt source.toList offset →
      other.StandsAt source.toList offset → one.inComment = other.inComment) ∧
    ∀ offset (analyzer : Analyzer), analyzer.StandsAt source.toList offset →
      ∃ kept front back, source.toList = front ++ back ∧ byteSize front = offset ∧
        (fresh analyzer.mode).analyze source = analyzer.scan offset kept back := by
  refine ⟨⟨_, _, tokens_eq_ok_cut _ _ _, tokens_eq_ok_cut _ _ _, ?_⟩, ?_, ?_⟩
  · rw [filter_cut, filter_cut]
  · intro offset one other hone hother
    rw [hone.inComment_eq, hother.inComment_eq]
  · rintro offset analyzer ⟨front, back, hfound, rfl, hafter⟩
    have hcut : cut (fresh analyzer.mode).mode 0 source.toList = front ++ back :=
      (tokens_eq_ok_iff.mp hfound).symm
    obtain ⟨kept, hkept⟩ := exists_scan_after hcut []
    have htexts := (tiles_cut analyzer.mode 0 source.toList).texts_eq
    rw [← tokens_eq_ok_iff.mp hfound, texts_append] at htexts
    refine ⟨kept, texts front, texts back, htexts.symm, rfl, ?_⟩
    rw [← hafter, Nat.zero_add] at hkept
    exact hkept

end Analyzer

end StraightLine
