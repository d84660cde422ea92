import StraightLine.Proofs.Grammar.Refusal
import StraightLine.Proofs.Lexeme.Tiling
import StraightLine.Proofs.Position
import StraightLine.Report

/-!
# Where reports point

A source that cannot be read always has a report with a location. Read as a
line, a column and a number of bytes, the location gives back the text of the
lexeme that the fault is about; if the lexemes had run out, it is the empty
place behind the last one.
-/

namespace StraightLine

open Text

namespace Fault

/-- The text that the fault says was found. -/
def found? : Fault → Option String
  | .unexpected _ found _ | .trailing found _ => some found
  | _ => none

/-- The fault says that there were no more lexemes. -/
def isExhaustion : Fault → Bool
  | .unterminated _ => true
  | .unexpected _ found _ => found == endOfInput
  | _ => false

end Fault

namespace Lexeme

variable {mode : Mode} {source : String} {lexemes : List Lexeme}

/-- Each lexeme of a source lies in it where its span says, and is one word or symbol. -/
theorem exists_append_of_analyze (h : analyze mode source = .ok lexemes) {lexeme : Lexeme}
    (hlexeme : lexeme ∈ lexemes) :
    lexeme.source ≠ "" ∧ (∀ c ∈ lexeme.source.toList, isBlank c = false) ∧
      ∃ front back, source.toList = front ++ lexeme.source.toList ++ back ∧
        lexeme.span.start = byteSize front ∧
        lexeme.span.stop = lexeme.span.start + byteSize lexeme.source.toList := by
  obtain ⟨hmem, hshown⟩ := mem_cut_of_analyze h hlexeme
  obtain ⟨rest, htakes⟩ := takes_of_mem_cut hmem
  have htiles := tiles_cut mode 0 source.toList
  refine ⟨htiles.ne_empty lexeme hmem, htakes.isBlank_eq_false ?_, htiles.exists_append hmem⟩
  intro hkind
  rw [hkind] at hshown
  cases hshown

theorem source_ne_endOfInput (h : analyze mode source = .ok lexemes) {lexeme : Lexeme}
    (hlexeme : lexeme ∈ lexemes) : lexeme.source ≠ endOfInput := by
  intro heq
  have hblank := (exists_append_of_analyze h hlexeme).2.1 ' ' (by rw [heq]; decide)
  cases hblank

end Lexeme

/-! ### Locations -/

namespace Location

/-- The text a location marks: so many bytes behind its position, on its line. -/
def read? (location : Location) (source : String) : Option (List Char) :=
  (location.position.split? source.toList).bind fun parts =>
    front? parts.2 location.length.toNat

/-- The location of a text that stands behind a front of its source. -/
def behind (file : String) (front text : List Char) : Location :=
  ⟨file, Position.after front, UInt64.ofNat (byteSize text)⟩

variable {span : Span} {source : String} {front text back : List Char}

theorem ofSpan?_of_append (hsource : source.toList = front ++ text ++ back)
    (hstart : span.start = byteSize front) (hstop : span.stop = span.start + byteSize text)
    (file : String) : ofSpan? span file source = some (behind file front text) := by
  rw [List.append_assoc] at hsource
  have hlength : span.length? = some (byteSize text) := by
    rw [Span.length?, hstop, if_pos (Nat.le_add_right _ _), Nat.add_sub_cancel_left]
  rw [ofSpan?, Span.position?_of_append hsource hstart, hlength]
  rfl

theorem split?_behind (hsource : source.toList = front ++ text ++ back)
    (hsize : source.utf8ByteSize < 2 ^ 32 - 1) (file : String) :
    (behind file front text).position.split? source.toList =
      some (front, (text ++ back).takeWhile (· != '\n')) := by
  rw [utf8ByteSize_eq_byteSize, hsource, byteSize_append, byteSize_append] at hsize
  rw [hsource, List.append_assoc]
  apply Position.split?_after
  omega

theorem read?_behind (hsource : source.toList = front ++ text ++ back)
    (hsize : source.utf8ByteSize < 2 ^ 32 - 1) (htext : '\n' ∉ text) (file : String) :
    (behind file front text).read? source = some text := by
  have hlength : (behind file front text).length.toNat = byteSize text := by
    rw [utf8ByteSize_eq_byteSize, hsource, byteSize_append, byteSize_append] at hsize
    apply UInt64.toNat_ofNat_of_lt'
    rw [UInt64.size]
    omega
  rw [read?, split?_behind hsource hsize, Option.bind_some, hlength,
    List.takeWhile_append_of_pos (bne_newline_of_not_mem htext), front?_byteSize]

end Location

/-! ### Faults of sources -/

namespace Stream

theorem isExhausted_skip_ofList (lexemes : List Lexeme) (i : Nat) :
    ((ofList lexemes).skip i).isExhausted = true ↔ lexemes.length ≤ i := by
  rw [isExhausted, ahead_skip_ofList, List.isEmpty_iff, List.drop_eq_nil_iff]

/-- What reading from the start of a list of lexemes can fail with, and where it stops. -/
theorem fault_of_parse_ofList {lexemes : List Lexeme} {fault : Fault}
    (h : (ofList lexemes).parse.1 = .error fault) :
    (∃ lexeme ∈ lexemes, (ofList lexemes).parse.2.isExhausted = false ∧
      (fault = .trailing lexeme.source lexeme.span ∨
        ∃ expected, fault = .unexpected expected lexeme.source lexeme.span)) ∨
    ((ofList lexemes).parse.2.isExhausted = true ∧
      (fault = .unterminated (Span.point (Lexeme.ending lexemes)) ∨
        ∃ expected,
          fault = .unexpected expected endOfInput (Span.point (Lexeme.ending lexemes)))) := by
  have hparse : ((ofList lexemes).skip 0).parse = (.error fault, (ofList lexemes).parse.2) :=
    Prod.ext h rfl
  rcases failsAt_of_parse hparse with ⟨i, lexeme, hk, hi, hstream, hfails⟩ | ⟨hstream, hfails⟩
  · left
    obtain ⟨hlt, -⟩ := List.getElem?_eq_some_iff.mp hi
    refine ⟨lexeme, List.mem_of_getElem? hi, ?_, ?_⟩
    · rw [hstream, Bool.eq_false_iff, ne_eq, isExhausted_skip_ofList]
      exact Nat.not_le_of_lt hlt
    · rcases fault_of_failsAt_lexeme hk hi hfails with hfault | ⟨expected, hfault, -⟩
      · exact .inl hfault
      · exact .inr ⟨expected, hfault⟩
  · right
    refine ⟨?_, ?_⟩
    · rw [hstream, isExhausted_skip_ofList]
    · rcases fault_of_failsAt_end hfails with hfault | ⟨expected, hfault, -⟩
      · exact .inl hfault
      · exact .inr ⟨expected, hfault⟩

end Stream

namespace Report

/-- The span of a fault is inside the source and cuts no character, and the fault has a report with
a location in the file. -/
structure Places (report : Report) (fault : Fault) (span : Span) (location : Location)
    (file source : String) : Prop where
  span_eq : fault.span? = some span
  start_le_stop : span.start ≤ span.stop
  stop_le_size : span.stop ≤ source.utf8ByteSize
  start_isValid : String.Pos.Raw.IsValid source ⟨span.start⟩
  stop_isValid : String.Pos.Raw.IsValid source ⟨span.stop⟩
  report_eq : ofFault? fault file source = some report
  location_eq : report.location? = some location
  file_eq : location.file = file

/-- Whoever follows the location of a report into the source comes to the text of the offending
lexeme, or behind the last lexeme if there was no more. -/
structure Locates (report : Report) (fault : Fault) (lexemes : List Lexeme) (span : Span)
    (location : Location) (file source : String) : Prop
    extends Places report fault span location file source where
  isExhaustion_iff : fault.isExhaustion = true ↔
    (Stream.ofList lexemes).parse.2.isExhausted = true
  read_found : fault.isExhaustion = false →
    ∃ found, fault.found? = some found ∧ location.read? source = some found.toList
  read_end : fault.isExhaustion = true → location.length = 0 ∧
    (∃ front rest, location.position.split? source.toList = some (front, rest) ∧
      byteSize front = Lexeme.ending lexemes) ∧
    (lexemes = [] → location.position = ⟨1, 1⟩)
  found_eq_endOfInput_iff : ∀ expected found, fault = .unexpected expected found span →
    (found = endOfInput ↔ span.start = span.stop)

variable {mode : Mode} {source : String} {lexemes : List Lexeme} {fault : Fault}

theorem code_of_ofFault? {report : Report} {file : String}
    (h : ofFault? fault file source = some report) : report.code = fault.code := by
  rw [ofFault?] at h
  split at h
  · cases h
    rfl
  · obtain ⟨location, -, rfl⟩ := Option.map_eq_some_iff.mp h
    rfl

theorem places_of_append {span : Span} {text : String} {front back : List Char}
    (hspan : fault.span? = some span) (hsource : source.toList = front ++ text.toList ++ back)
    (hstart : span.start = byteSize front) (hstop : span.stop = span.start + byteSize text.toList)
    (file : String) :
    Places ⟨fault.code, .error, fault.message, some (.behind file front text.toList)⟩ fault span
      (.behind file front text.toList) file source where
  span_eq := hspan
  start_le_stop := hstop ▸ Nat.le_add_right _ _
  stop_le_size := by
    rw [utf8ByteSize_eq_byteSize, hsource, byteSize_append, byteSize_append, hstop, hstart]
    exact Nat.le_add_right _ _
  start_isValid := (Span.cuts_of_append hsource hstart hstop).start_isValid
  stop_isValid := (Span.cuts_of_append hsource hstart hstop).stop_isValid
  report_eq := by
    rw [ofFault?, hspan]
    dsimp only
    rw [Location.ofSpan?_of_append hsource hstart hstop]
    rfl
  location_eq := rfl
  file_eq := rfl

theorem exists_locates_lexeme (hsize : source.utf8ByteSize < 2 ^ 32 - 1)
    (hlexemes : Lexeme.analyze mode source = .ok lexemes) {lexeme : Lexeme}
    (hlexeme : lexeme ∈ lexemes) (hstop : (Stream.ofList lexemes).parse.2.isExhausted = false)
    (hfault : fault = .trailing lexeme.source lexeme.span ∨
      ∃ expected, fault = .unexpected expected lexeme.source lexeme.span) (file : String) :
    ∃ report location, Locates report fault lexemes lexeme.span location file source := by
  obtain ⟨hne, hblank, front, back, hsource, hfirst, hlast⟩ :=
    Lexeme.exists_append_of_analyze hlexemes hlexeme
  have hnotEnd := Lexeme.source_ne_endOfInput hlexemes hlexeme
  obtain ⟨hspan, hfound, hexhaustion⟩ : fault.span? = some lexeme.span ∧
      fault.found? = some lexeme.source ∧ fault.isExhaustion = false := by
    rcases hfault with rfl | ⟨expected, rfl⟩
    · exact ⟨rfl, rfl, rfl⟩
    · exact ⟨rfl, rfl, beq_eq_false_iff_ne.mpr hnotEnd⟩
  have hnewline : '\n' ∉ lexeme.source.toList := fun hmem => nomatch hblank '\n' hmem
  have hpos : byteSize lexeme.source.toList ≠ 0 := by
    rw [ne_eq, byteSize_eq_zero_iff, String.toList_eq_nil_iff]
    exact hne
  refine ⟨_, _, places_of_append hspan hsource hfirst hlast file, ?_, ?_, ?_, ?_⟩
  · rw [hexhaustion, hstop]
  · intro _
    exact ⟨lexeme.source, hfound, Location.read?_behind hsource hsize hnewline file⟩
  · intro h
    exact absurd (hexhaustion.symm.trans h) Bool.false_ne_true
  · rintro expected found rfl
    obtain rfl : found = lexeme.source := Option.some.inj hfound
    refine iff_of_false hnotEnd ?_
    omega

theorem exists_append_ending (hlexemes : Lexeme.analyze mode source = .ok lexemes) :
    ∃ front back, source.toList = front ++ back ∧
      byteSize front = Lexeme.ending lexemes ∧ (lexemes = [] → front = []) := by
  rcases List.eq_nil_or_concat' lexemes with rfl | ⟨before, last, rfl⟩
  · exact ⟨[], source.toList, rfl, rfl, fun _ => rfl⟩
  · obtain ⟨-, -, front, back, hsource, hfirst, hlast⟩ :=
      Lexeme.exists_append_of_analyze hlexemes List.mem_concat_self
    refine ⟨front ++ last.source.toList, back, hsource, ?_, by simp⟩
    rw [byteSize_append, ← hfirst, ← hlast, Lexeme.ending, List.getLast?_concat]
    rfl

theorem exists_locates_end (hsize : source.utf8ByteSize < 2 ^ 32 - 1)
    (hlexemes : Lexeme.analyze mode source = .ok lexemes)
    (hstop : (Stream.ofList lexemes).parse.2.isExhausted = true)
    (hfault : fault = .unterminated (Span.point (Lexeme.ending lexemes)) ∨
      ∃ expected, fault = .unexpected expected endOfInput (Span.point (Lexeme.ending lexemes)))
    (file : String) :
    ∃ report location, Locates report fault lexemes (Span.point (Lexeme.ending lexemes)) location
      file source := by
  obtain ⟨front, back, hsplit, hending, hempty⟩ := exists_append_ending hlexemes
  have hsource : source.toList = front ++ "".toList ++ back := by
    rw [String.toList_empty, List.append_nil, hsplit]
  obtain ⟨hspan, hexhaustion⟩ : fault.span? = some (Span.point (Lexeme.ending lexemes)) ∧
      fault.isExhaustion = true := by
    rcases hfault with rfl | ⟨expected, rfl⟩
    · exact ⟨rfl, rfl⟩
    · exact ⟨rfl, beq_self_eq_true endOfInput⟩
  refine ⟨_, _, places_of_append hspan hsource hending.symm rfl file, ?_, ?_, ?_, ?_⟩
  · rw [hexhaustion, hstop]
  · intro h
    exact absurd (h.symm.trans hexhaustion) Bool.false_ne_true
  · intro _
    refine ⟨rfl, ⟨front, _, Location.split?_behind hsource hsize file, hending⟩, ?_⟩
    intro hnone
    rw [hempty hnone]
    rfl
  · rintro expected found rfl
    rcases hfault with hfault | ⟨_, hfault⟩
    · cases hfault
    · cases hfault
      exact iff_of_true rfl rfl

/-- A source of any size that is not a program is reported, with a location inside it. -/
theorem exists_places_fault (file : String) (hfault : Program.ofSource mode source = .error fault) :
    ∃ report span location, Places report fault span location file source := by
  obtain ⟨lexemes, hlexemes⟩ := Lexeme.exists_analyze_eq_ok mode source
  rw [Program.ofSource, hlexemes] at hfault
  rcases Stream.fault_of_parse_ofList hfault with ⟨lexeme, hlexeme, -, habout⟩ | ⟨-, hend⟩
  · obtain ⟨-, -, front, back, hsource, hstart, hstop⟩ :=
      Lexeme.exists_append_of_analyze hlexemes hlexeme
    have hspan : fault.span? = some lexeme.span := by
      rcases habout with rfl | ⟨expected, rfl⟩ <;> rfl
    exact ⟨_, _, _, places_of_append hspan hsource hstart hstop file⟩
  · obtain ⟨front, back, hsplit, hending, -⟩ := exists_append_ending hlexemes
    have hsource : source.toList = front ++ "".toList ++ back := by
      rw [String.toList_empty, List.append_nil, hsplit]
    have hspan : fault.span? = some (Span.point (Lexeme.ending lexemes)) := by
      rcases hend with rfl | ⟨expected, rfl⟩ <;> rfl
    exact ⟨_, _, _, places_of_append hspan hsource hending.symm rfl file⟩

/-- A source with fewer than `2 ^ 32 - 1` bytes that is not a program is reported at a location.
The location marks the text of the lexeme that cannot stand there or, if reading ran out of
lexemes, the place where the last one ends. -/
theorem exists_locates_fault (mode : Mode) (file source : String) {fault : Fault}
    (hsize : source.utf8ByteSize < 2 ^ 32 - 1)
    (hfault : Program.ofSource mode source = .error fault) :
    ∃ lexemes, Lexeme.analyze mode source = .ok lexemes ∧
      ∃ report span location, Locates report fault lexemes span location file source := by
  obtain ⟨lexemes, hlexemes⟩ := Lexeme.exists_analyze_eq_ok mode source
  rw [Program.ofSource, hlexemes] at hfault
  refine ⟨lexemes, hlexemes, ?_⟩
  rcases Stream.fault_of_parse_ofList hfault with ⟨lexeme, hlexeme, hstop, habout⟩ | ⟨hstop, hend⟩
  · obtain ⟨report, location, hlocates⟩ :=
      exists_locates_lexeme hsize hlexemes hlexeme hstop habout file
    exact ⟨report, lexeme.span, location, hlocates⟩
  · obtain ⟨report, location, hlocates⟩ := exists_locates_end hsize hlexemes hstop hend file
    exact ⟨report, Span.point (Lexeme.ending lexemes), location, hlocates⟩

theorem exists_locates_fault_wide :
    "start /*é\n*/ x=\r\n\té end".utf8ByteSize < 2 ^ 32 - 1 ∧
      Program.ofSource .pattern "start /*é\n*/ x=\r\n\té end" =
        .error (.unexpected "an expression" "é" ⟨19, 21⟩) ∧
      ∃ lexemes, Lexeme.analyze .pattern "start /*é\n*/ x=\r\n\té end" = .ok lexemes ∧
        ∃ report span location, Locates report (.unexpected "an expression" "é" ⟨19, 21⟩) lexemes span
          location "ü.start" "start /*é\n*/ x=\r\n\té end" := by
  have hsize : "start /*é\n*/ x=\r\n\té end".utf8ByteSize < 2 ^ 32 - 1 := by decide
  have hfault : Program.ofSource .pattern "start /*é\n*/ x=\r\n\té end" =
      .error (.unexpected "an expression" "é" ⟨19, 21⟩) := by decide +kernel
  exact ⟨hsize, hfault, exists_locates_fault .pattern "ü.start" _ hsize hfault⟩

end Report

end StraightLine
