import StraightLine.Proofs.Lexeme.Tiling

/-!
# Comments

Inside a comment the text is still cut into tokens, and a comment goes on up
to the first token that is a closing delimiter. That token does not depend on
the mode: it is found by reading delimiters from the left, each as a whole. A
slash at the end of the body joins the star that follows it, so such a comment
stays open.
-/

namespace StraightLine

open Text

namespace Text

/-- What is left behind the first closing delimiter, if delimiters are read as a whole. -/
def behindComment : List Char → List Char
  | '*' :: '/' :: rest => rest
  | '/' :: '*' :: rest => behindComment rest
  | _ :: rest => behindComment rest
  | [] => []

theorem behindComment_cons {c : Char} {cs : List Char}
    (h : Carving.isDelimiter c cs.head? = false) : behindComment (c :: cs) = behindComment cs := by
  rw [Bool.eq_false_iff, ne_eq, Carving.isDelimiter_eq_true_iff] at h
  obtain ⟨hopening, hclosing⟩ := not_or.mp h
  rw [behindComment]
  · rintro rest rfl rfl
    exact hclosing ⟨rfl, rfl⟩
  · rintro rest rfl rfl
    exact hopening ⟨rfl, rfl⟩

theorem behindComment_append_of_forall {text : List Char} (h : ∀ c ∈ text, c ≠ '/' ∧ c ≠ '*')
    (rest : List Char) : behindComment (text ++ rest) = behindComment rest := by
  induction text with
  | nil => rfl
  | cons c text ih =>
    obtain ⟨hc, htext⟩ := List.forall_mem_cons.mp h
    rw [List.cons_append, behindComment_cons, ih htext]
    rw [Carving.isDelimiter, beq_eq_false_iff_ne.mpr hc.1, beq_eq_false_iff_ne.mpr hc.2]
    rfl

theorem behindComment_suffix (source : List Char) : behindComment source <:+ source := by
  fun_induction behindComment source with
  | case1 rest => exact ⟨['*', '/'], rfl⟩
  | case2 rest ih => exact ih.trans ⟨['/', '*'], rfl⟩
  | case3 c rest _ _ ih => exact ih.trans (List.suffix_cons c rest)
  | case4 => exact List.suffix_rfl

/-- A body without a closing delimiter is passed over, if it does not end in half a delimiter. -/
theorem behindComment_append {body rest : List Char} (hbody : ¬ ['*', '/'] <:+: body)
    (hlast : ∀ c ∈ body.getLast?, Carving.isDelimiter c rest.head? = false) :
    behindComment (body ++ rest) = behindComment rest := by
  fun_induction behindComment body with
  | case1 body => exact absurd ⟨[], body, rfl⟩ hbody
  | case2 body ih =>
    change behindComment (body ++ rest) = _
    apply ih
    · exact fun h => hbody (h.trans ⟨['/', '*'], [], by simp⟩)
    · exact fun c hc => hlast c (List.mem_getLast?_cons (List.mem_getLast?_cons hc))
  | case3 c body hclosing hopening ih =>
    have hcut : Carving.isDelimiter c (body ++ rest).head? = false := by
      cases body with
      | nil => exact hlast c rfl
      | cons d body =>
        rw [Bool.eq_false_iff, ne_eq, Carving.isDelimiter_eq_true_iff]
        rintro (⟨rfl, ⟨⟩⟩ | ⟨rfl, ⟨⟩⟩)
        · exact hopening body rfl rfl
        · exact hclosing body rfl rfl
    rw [List.cons_append, behindComment_cons hcut]
    apply ih
    · exact fun h => hbody (h.trans (List.suffix_cons c body).isInfix)
    · exact fun d hd => hlast d (List.mem_getLast?_cons hd)
  | case4 => rfl

end Text

namespace Mode

variable {mode : Mode} {text rest front back : List Char} {kind : Kind}

theorem ne_of_isStop_eq_false {c : Char} (h : isStop c = false) : c ≠ '/' ∧ c ≠ '*' := by
  constructor
  · rintro rfl
    cases h
  · rintro rfl
    cases h

theorem ne_of_isSpace {c : Char} (h : mode.isSpace c = true) : c ≠ '/' ∧ c ≠ '*' := by
  constructor
  · rintro rfl
    cases mode <;> cases h
  · rintro rfl
    cases mode <;> cases h

/-- A token that is no delimiter has no half of a delimiter in front of the other half. -/
theorem Takes.undelimited (h : mode.Takes text rest kind) (hkind : kind.isDelimiter = false) :
    (∀ c ∈ text, c ≠ '/' ∧ c ≠ '*') ∨
      ∃ c, text = [c] ∧ Carving.isDelimiter c rest.head? = false := by
  have hword : ∀ c, isWord c = true → c ≠ '/' ∧ c ≠ '*' := fun c hc =>
    ne_of_isStop_eq_false (isStop_eq_false_of_isWord hc)
  cases takes_iff_shape.mp h with
  | openComment | closeComment => cases hkind
  | lone _ hrest => exact .inr ⟨_, rfl, hrest⟩
  | space _ htext _ => exact .inl fun c hc => ne_of_isSpace (htext c hc)
  | assignment | openParen | closeParen => exact .inl (List.forall_mem_singleton.mpr (by decide))
  | run _ htext _ => exact .inl fun c hc => ne_of_isStop_eq_false (htext c hc)
  | word htext _ => exact .inl fun c hc => hword c (isWord_of_isIdentifier htext c hc)
  | number _ htext _ => exact .inl fun c hc => hword c (isWord_of_isDigit (htext c hc))
  | glued hc _ => exact .inl (List.forall_mem_singleton.mpr (hword _ (isWord_of_isDigit hc)))
  | stray _ _ _ hstop => exact .inl (List.forall_mem_singleton.mpr (ne_of_isStop_eq_false hstop))

/-- A token that does not close a comment holds no part of a closing delimiter either. -/
theorem Takes.behindComment_eq (h : mode.Takes text rest kind) (hkind : kind ≠ .closeComment) :
    behindComment (text ++ rest) = behindComment rest := by
  rcases hdelimiter : kind.isDelimiter with _ | _
  · obtain htext | ⟨c, rfl, hc⟩ := h.undelimited hdelimiter
    · exact behindComment_append_of_forall htext rest
    · exact behindComment_cons hc
  · cases kind with
    | openComment =>
      obtain rfl : text = ['/', '*'] := h.fits
      rfl
    | closeComment => exact absurd rfl hkind
    | _ => cases hdelimiter

/-- What follows a text decides nothing about a token inside it, as long as no word runs over the
edge. In scan mode that is no matter. -/
theorem Takes.of_append (h : mode.Takes text (front ++ back) kind)
    (hback : mode = pattern → Ends isWord back) : mode.Takes text front kind := by
  rw [takes_iff_shape] at h ⊢
  cases h with
  | openComment => exact .openComment
  | closeComment => exact .closeComment
  | lone hc hrest =>
    refine .lone hc ?_
    cases front with
    | nil => simp [Carving.isDelimiter]
    | cons d front => exact hrest
  | space hne htext hrest => exact .space hne htext hrest.of_append
  | assignment => exact .assignment
  | openParen => exact .openParen
  | closeParen => exact .closeParen
  | run hne htext hrest => exact .run hne htext hrest.of_append
  | word htext hrest => exact .word htext hrest.of_append
  | number hne htext hrest => exact .number hne htext hrest.of_append
  | glued hc hrest =>
    refine .glued hc ?_
    rw [List.dropWhile_append] at hrest
    split at hrest
    · have hends := hback rfl
      rw [hends.isDigit.dropWhile_eq, hends.any_head?] at hrest
      cases hrest
    · rename_i hleft
      obtain ⟨d, left, hd⟩ := List.exists_cons_of_ne_nil (mt List.isEmpty_iff.mpr hleft)
      rw [hd] at hrest ⊢
      exact hrest
  | stray hspace halpha hdigit hstop => exact .stray hspace halpha hdigit hstop

end Mode

namespace Lexeme

open Mode

variable {mode : Mode} {offset : Nat}

theorem visible_cut_openComment (mode : Mode) (inComment : Bool) (offset : Nat)
    (rest : List Char) :
    visible inComment (cut mode offset (['/', '*'] ++ rest)) =
      visible true (cut mode (offset + 2) rest) := by
  rw [cut_append (takes_iff_shape.mpr .openComment)]
  rfl

theorem visible_cut_closeComment (mode : Mode) (inComment : Bool) (offset : Nat)
    (rest : List Char) :
    visible inComment (cut mode offset (['*', '/'] ++ rest)) =
      visible false (cut mode (offset + 2) rest) := by
  rw [cut_append (takes_iff_shape.mpr .closeComment)]
  rfl

theorem visible_true_cons {token : Lexeme} (htoken : token.kind ≠ .closeComment)
    (rest : List Lexeme) : visible true (token :: rest) = visible true rest := by
  rw [visible]
  split
  · rfl
  · exact absurd ‹_› htoken
  · rfl
  · rfl

/-- Inside a comment nothing is seen before the text behind the comment. -/
theorem visible_true_cut {body source : List Char} (h : source = body ++ behindComment source)
    (offset : Nat) :
    visible true (cut mode offset source) =
      visible false (cut mode (offset + byteSize body) (behindComment source)) := by
  induction source using mode.takes_induction generalizing body offset with
  | nil =>
    rw [behindComment, cut_nil, cut_nil]
    rfl
  | @step text rest kind htakes ih =>
    rcases eq_or_ne kind .closeComment with rfl | hkind
    · obtain rfl : text = ['*', '/'] := htakes.fits
      obtain rfl : ['*', '/'] = body := List.append_cancel_right h
      exact visible_cut_closeComment mode true offset rest
    · rw [htakes.behindComment_eq hkind] at h ⊢
      obtain ⟨left, hleft⟩ := behindComment_suffix rest
      have hbody : text ++ left ++ behindComment rest = body ++ behindComment rest := by
        rw [← h, List.append_assoc, hleft]
      obtain rfl : text ++ left = body := List.append_cancel_right hbody
      rw [cut_append htakes, visible_true_cons hkind, ih hleft.symm, byteSize_append,
        Nat.add_assoc]

/-- The body of a comment is passed over, if it has no closing delimiter and does not end in half a
delimiter. -/
theorem visible_true_cut_append {body rest : List Char} (hbody : ¬ ['*', '/'] <:+: body)
    (hlast : ∀ c ∈ body.getLast?, Carving.isDelimiter c rest.head? = false) (offset : Nat) :
    visible true (cut mode offset (body ++ rest)) =
      visible true (cut mode (offset + byteSize body) rest) := by
  obtain ⟨left, hleft⟩ := behindComment_suffix rest
  have hbehind := behindComment_append hbody hlast
  have hsource : body ++ rest = (body ++ left) ++ behindComment (body ++ rest) := by
    rw [hbehind, List.append_assoc, hleft]
  rw [visible_true_cut hsource, visible_true_cut hleft.symm, hbehind, byteSize_append,
    Nat.add_assoc]

/-! ### Cutting at a boundary -/

/-- A text followed by one that does not continue a word is cut as if it stood alone, up to the
boundary between them. -/
theorem cut_append_of_boundary {front back : List Char} (hback : Ends isWord back)
    (hboundary : ∃ token ∈ cut mode offset (front ++ back),
      token.span.start = offset + byteSize front) :
    cut mode offset (front ++ back) =
      cut mode offset front ++ cut mode (offset + byteSize front) back := by
  generalize hsource : front ++ back = source at hboundary ⊢
  induction source using mode.takes_induction generalizing front offset with
  | nil =>
    obtain ⟨rfl, rfl⟩ := List.append_eq_nil_iff.mp hsource
    rw [cut_nil, cut_nil]
    rfl
  | @step text rest kind htakes ih =>
    rcases eq_or_ne front [] with rfl | hne
    · rw [← hsource, cut_nil]
      rfl
    have hsize : byteSize front ≠ 0 := mt (byteSize_eq_zero_iff front).mp hne
    rw [cut_append htakes] at hboundary
    obtain ⟨token, htoken, hstart⟩ := hboundary
    have hrest : token ∈ cut mode (offset + byteSize text) rest := by
      rcases List.mem_cons.mp htoken with rfl | hrest
      · change offset = offset + byteSize front at hstart
        omega
      · exact hrest
    have hle := (tiles_cut mode (offset + byteSize text) rest).spans.le_start token hrest
    -- the first token does not reach over the boundary
    obtain ⟨left, rfl, rfl⟩ : ∃ left, front = text ++ left ∧ rest = left ++ back := by
      rcases List.append_eq_append_iff.mp hsource with ⟨beyond, rfl, rfl⟩ | hwithin
      · rw [byteSize_append] at hle
        obtain rfl : beyond = [] := (byteSize_eq_zero_iff beyond).mp (by omega)
        exact ⟨[], by simp, rfl⟩
      · exact hwithin
    rw [byteSize_append, ← Nat.add_assoc] at hstart ⊢
    rw [cut_append htakes, cut_append (htakes.of_append fun _ => hback),
      ih rfl ⟨token, hrest, hstart⟩]
    rfl

/-! ### Distances -/

def shift (distance : Nat) (lexeme : Lexeme) : Lexeme :=
  { lexeme with span := ⟨distance + lexeme.span.start, distance + lexeme.span.stop⟩ }

theorem cut_add (mode : Mode) (distance offset : Nat) (source : List Char) :
    cut mode (distance + offset) source = (cut mode offset source).map (shift distance) := by
  induction source using mode.takes_induction generalizing offset with
  | nil =>
    rw [cut_nil, cut_nil]
    rfl
  | step htakes ih =>
    rw [cut_append htakes, cut_append htakes, Nat.add_assoc, ih, List.map_cons, shift, place,
      place, Nat.add_assoc]

theorem visible_map_shift (inComment : Bool) (distance : Nat) (found : List Lexeme) :
    visible inComment (found.map (shift distance)) =
      (visible inComment found).map (shift distance) := by
  induction found generalizing inComment with
  | nil => rfl
  | cons token found ih =>
    have hkind : (shift distance token).kind = token.kind := rfl
    rw [List.map_cons, visible, visible, hkind]
    cases token.kind
    all_goals cases inComment
    all_goals simp only [ih, List.map_cons, if_true, if_false, Bool.false_eq_true]

/-- What is seen of a source from an offset on is what analysis finds in it, moved there. -/
theorem exists_analyze_visible_cut (mode : Mode) (source : String) (distance : Nat) :
    ∃ found, analyze mode source = .ok found ∧
      visible false (cut mode distance source.toList) = found.map (shift distance) := by
  refine ⟨_, analyze_eq_ok mode source, ?_⟩
  rw [← visible_map_shift, ← cut_add]
  rfl

/-! ### Whole comments -/

theorem visible_cut_comment {body : List Char} (hbody : ¬ ['*', '/'] <:+: body)
    (hlast : body.getLast? ≠ some '/') (inComment : Bool) (offset : Nat) (rest : List Char) :
    visible inComment (cut mode offset (['/', '*'] ++ (body ++ (['*', '/'] ++ rest)))) =
      visible false (cut mode (offset + 2 + byteSize body + 2) rest) := by
  have hedge : ∀ c ∈ body.getLast?, Carving.isDelimiter c (['*', '/'] ++ rest).head? = false := by
    intro c hc
    rw [Bool.eq_false_iff, ne_eq, Carving.isDelimiter_eq_true_iff]
    rintro (⟨rfl, _⟩ | ⟨_, ⟨⟩⟩)
    exact hlast hc
  rw [visible_cut_openComment, visible_true_cut_append hbody hedge, visible_cut_closeComment]

/-- With a slash at the end of the body the comment goes on, as if it were opened there. -/
theorem visible_cut_reopened {stem : List Char} (hbody : ¬ ['*', '/'] <:+: stem ++ ['/'])
    (offset : Nat) (rest : List Char) :
    visible false (cut mode offset (['/', '*'] ++ (stem ++ (['/', '*'] ++ ('/' :: rest))))) =
      visible false (cut mode (offset + 2 + byteSize stem) (['/', '*'] ++ ('/' :: rest))) := by
  have hstem : ¬ ['*', '/'] <:+: stem :=
    fun h => hbody (h.trans (List.prefix_append _ _).isInfix)
  have hedge : ∀ c ∈ stem.getLast?,
      Carving.isDelimiter c (['/', '*'] ++ ('/' :: rest)).head? = false := by
    intro c hc
    rw [Bool.eq_false_iff, ne_eq, Carving.isDelimiter_eq_true_iff]
    rintro (⟨_, ⟨⟩⟩ | ⟨rfl, _⟩)
    obtain ⟨start, rfl⟩ := List.getLast?_eq_some_iff.mp hc
    rw [List.append_assoc] at hbody
    exact hbody (List.suffix_append start _).isInfix
  rw [visible_cut_openComment, visible_true_cut_append hstem hedge, visible_cut_openComment,
    visible_cut_openComment]

/-- A text that ends outside of comments is seen as if it stood alone. -/
theorem visible_cut_append {front back : List Char} (houtside : isOutside (cut mode 0 front) = true)
    (hback : Ends isWord back)
    (hboundary : ∃ token ∈ cut mode 0 (front ++ back), token.span.start = byteSize front) :
    visible false (cut mode 0 (front ++ back)) =
      visible false (cut mode 0 front) ++ visible false (cut mode (byteSize front) back) := by
  have hsplit := visible_append [] (cut mode 0 front) (cut mode (byteSize front) back)
  rw [List.nil_append, houtside] at hsplit
  rw [← Nat.zero_add (byteSize front)] at hboundary
  rw [cut_append_of_boundary hback hboundary, Nat.zero_add]
  exact hsplit

/-- If of the text behind a boundary the same is seen as of some other text, then that other text
can be analyzed by itself. -/
theorem exists_analyze_append {front tail rest : String} {distance : Nat}
    (houtside : isOutside (cut mode 0 front.toList) = true) (htail : Ends isWord tail.toList)
    (hboundary : ∃ token ∈ cut mode 0 (front ++ tail).toList,
      token.span.start = front.utf8ByteSize)
    (hvisible : visible false (cut mode front.utf8ByteSize tail.toList) =
      visible false (cut mode distance rest.toList)) :
    ∃ kept more, analyze mode front = .ok kept ∧ analyze mode rest = .ok more ∧
      analyze mode (front ++ tail) = .ok (kept ++ more.map (shift distance)) := by
  obtain ⟨more, hmore, hmoved⟩ := exists_analyze_visible_cut mode rest distance
  refine ⟨_, more, analyze_eq_ok mode front, hmore, ?_⟩
  rw [String.toList_append, utf8ByteSize_eq_byteSize] at hboundary
  rw [analyze_eq_ok, String.toList_append, visible_cut_append houtside htail hboundary,
    ← utf8ByteSize_eq_byteSize, hvisible, hmoved]

/-- A comment without a closing delimiter in its body is left out up to the delimiter behind it,
and the text after it is analyzed as if it stood alone. If the body ends in a slash, that slash
opens a comment again together with the star behind it. -/
theorem analyze_comment (mode : Mode) (front body rest : String) {found whole : List Lexeme}
    (hfound : tokens mode 0 front.toList = .ok found) (houtside : isOutside found = true)
    (hwhole : tokens mode 0 (front ++ "/*" ++ body ++ "*/" ++ rest).toList = .ok whole)
    (hboundary : ∃ token ∈ whole, token.span.start = front.utf8ByteSize)
    (hbody : ¬ "*/".toList <:+: body.toList) :
    (body.toList.getLast? ≠ some '/' →
      ∃ kept more, analyze mode front = .ok kept ∧ analyze mode rest = .ok more ∧
        analyze mode (front ++ "/*" ++ body ++ "*/" ++ rest) =
          .ok (kept ++ more.map (shift (front ++ "/*" ++ body ++ "*/").utf8ByteSize))) ∧
    ∀ stem, body = stem ++ "/" →
      ∃ kept more, analyze mode front = .ok kept ∧ analyze mode ("/*/" ++ rest) = .ok more ∧
        analyze mode (front ++ "/*" ++ body ++ "*/" ++ rest) =
          .ok (kept ++ more.map (shift (front ++ "/*" ++ stem).utf8ByteSize)) := by
  cases tokens_eq_ok_iff.mp hfound
  cases tokens_eq_ok_iff.mp hwhole
  have hopens : ∀ tail : String, Ends isWord ("/*" ++ tail).toList := by
    intro tail
    rw [String.toList_append]
    exact ends_cons.mpr rfl
  constructor
  · intro hlast
    have hsource : front ++ "/*" ++ body ++ "*/" ++ rest =
        front ++ ("/*" ++ (body ++ ("*/" ++ rest))) := by
      simp only [String.append_assoc]
    have hsize : (front ++ "/*" ++ body ++ "*/").utf8ByteSize =
        front.utf8ByteSize + 2 + byteSize body.toList + 2 := by
      simp only [String.utf8ByteSize_append, ← utf8ByteSize_eq_byteSize]
      rfl
    rw [hsource] at hboundary ⊢
    refine exists_analyze_append houtside (hopens _) hboundary ?_
    rw [hsize, String.toList_append, String.toList_append, String.toList_append]
    exact visible_cut_comment hbody hlast false _ _
  · rintro stem rfl
    have hslash : "/" ++ ("*/" ++ rest) = "/*/" ++ rest := (String.append_assoc ..).symm
    have hsource : front ++ "/*" ++ (stem ++ "/") ++ "*/" ++ rest =
        front ++ ("/*" ++ (stem ++ ("/*/" ++ rest))) := by
      simp only [String.append_assoc, hslash]
    have hsize : (front ++ "/*" ++ stem).utf8ByteSize =
        front.utf8ByteSize + 2 + byteSize stem.toList := by
      simp only [String.utf8ByteSize_append, ← utf8ByteSize_eq_byteSize]
      rfl
    have hagain : ("/*/" ++ rest).toList = ['/', '*'] ++ ('/' :: rest.toList) := by
      rw [String.toList_append]
      rfl
    rw [String.toList_append] at hbody
    rw [hsource] at hboundary ⊢
    refine exists_analyze_append houtside (hopens _) hboundary ?_
    rw [hsize, String.toList_append, String.toList_append, hagain]
    exact visible_cut_reopened hbody _ _

theorem analyze_comment_nested :
    (isOutside (cut .scan 0 "start x".toList) = true ∧
      (∃ token ∈ cut .scan 0 ("start x" ++ "/*" ++ "/é/* *" ++ "*/" ++ "=é").toList,
        token.span.start = "start x".utf8ByteSize) ∧
      ¬ "*/".toList <:+: "/é/* *".toList ∧ "/é/* *".toList.getLast? ≠ some '/' ∧
      ∃ kept more, analyze .scan "start x" = .ok kept ∧ analyze .scan "=é" = .ok more ∧
        analyze .scan ("start x" ++ "/*" ++ "/é/* *" ++ "*/" ++ "=é") =
          .ok (kept ++ more.map (shift ("start x" ++ "/*" ++ "/é/* *" ++ "*/").utf8ByteSize))) ∧
    (isOutside (cut .pattern 0 "x=".toList) = true ∧
      (∃ token ∈ cut .pattern 0 ("x=" ++ "/*" ++ "é/" ++ "*/" ++ " */5").toList,
        token.span.start = "x=".utf8ByteSize) ∧
      ¬ "*/".toList <:+: "é/".toList ∧ "é/" = "é" ++ "/" ∧
      ∃ kept more, analyze .pattern "x=" = .ok kept ∧
        analyze .pattern ("/*/" ++ " */5") = .ok more ∧
        analyze .pattern ("x=" ++ "/*" ++ "é/" ++ "*/" ++ " */5") =
          .ok (kept ++ more.map (shift ("x=" ++ "/*" ++ "é").utf8ByteSize))) := by
  constructor
  · have houtside : isOutside (cut .scan 0 "start x".toList) = true := by decide +kernel
    have hboundary : ∃ token ∈ cut .scan 0 ("start x" ++ "/*" ++ "/é/* *" ++ "*/" ++ "=é").toList,
        token.span.start = "start x".utf8ByteSize := by decide +kernel
    have hbody : ¬ "*/".toList <:+: "/é/* *".toList := by decide
    have hlast : "/é/* *".toList.getLast? ≠ some '/' := by decide
    exact ⟨houtside, hboundary, hbody, hlast,
      (analyze_comment .scan "start x" "/é/* *" "=é" (tokens_eq_ok_cut _ _ _) houtside
        (tokens_eq_ok_cut _ _ _) hboundary hbody).1 hlast⟩
  · have houtside : isOutside (cut .pattern 0 "x=".toList) = true := by decide +kernel
    have hboundary : ∃ token ∈ cut .pattern 0 ("x=" ++ "/*" ++ "é/" ++ "*/" ++ " */5").toList,
        token.span.start = "x=".utf8ByteSize := by decide +kernel
    have hbody : ¬ "*/".toList <:+: "é/".toList := by decide
    have hslash : "é/" = "é" ++ "/" := by decide
    exact ⟨houtside, hboundary, hbody, hslash,
      (analyze_comment .pattern "x=" "é/" " */5" (tokens_eq_ok_cut _ _ _) houtside
        (tokens_eq_ok_cut _ _ _) hboundary hbody).2 "é" hslash⟩

/-- In a body that ends in a slash the star of the closing delimiter is taken with that slash. -/
theorem not_analyze_comment_of_slash :
    ¬ ∀ (mode : Mode) (front body rest : String) (found whole : List Lexeme),
      tokens mode 0 front.toList = .ok found → isOutside found = true →
      tokens mode 0 (front ++ "/*" ++ body ++ "*/" ++ rest).toList = .ok whole →
      (∃ token ∈ whole, token.span.start = front.utf8ByteSize) →
      ¬ "*/".toList <:+: body.toList →
      ∃ kept more, analyze mode front = .ok kept ∧ analyze mode rest = .ok more ∧
        analyze mode (front ++ "/*" ++ body ++ "*/" ++ rest) =
          .ok (kept ++ more.map (shift (front ++ "/*" ++ body ++ "*/").utf8ByteSize)) := by
  intro h
  obtain ⟨kept, more, hkept, hmore, hwhole⟩ := h .pattern "" "/" "x" _ _
    (tokens_eq_ok_cut _ _ _) (by decide +kernel) (tokens_eq_ok_cut _ _ _) (by decide +kernel)
    (by decide)
  have hfront : analyze .pattern "" = .ok [] := by decide +kernel
  have hrest : analyze .pattern "x" = .ok [⟨"x", .identifier, ⟨0, 1⟩⟩] := by decide +kernel
  have hnothing : analyze .pattern ("" ++ "/*" ++ "/" ++ "*/" ++ "x") = .ok [] := by decide +kernel
  rw [hfront] at hkept
  rw [hrest] at hmore
  rw [hnothing] at hwhole
  cases hkept
  cases hmore
  cases hwhole

end Lexeme

end StraightLine
