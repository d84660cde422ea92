import StraightLine.Proofs.Lexeme.Tiling
import StraightLine.Proofs.Position
import Mathlib.Data.Prod.Lex

/-!
# The order of positions

Positions are ordered as a text is read, by line and on one line by column. The
position behind a longer front of a source comes later: a line feed in what is
added takes it to a later line, and anything else to a later column. So on the
boundaries between characters positions keep the order of offsets and tell them
apart.
-/

namespace StraightLine

namespace Text

variable {source first second : List Char}

theorem eq_of_byteSize_eq (hfirst : first <+: source) (hsecond : second <+: source)
    (h : byteSize first = byteSize second) : first = second := by
  obtain ⟨rest, rfl⟩ := hfirst
  obtain ⟨other, hother⟩ := hsecond
  have hfront := front?_byteSize second other
  rw [hother, ← h, front?_byteSize] at hfront
  exact Option.some_inj.mp hfront

theorem exists_append_of_byteSize_lt (hfirst : first <+: source) (hsecond : second <+: source)
    (h : byteSize first < byteSize second) : ∃ more, more ≠ [] ∧ second = first ++ more := by
  rcases List.prefix_or_prefix_of_prefix hfirst hsecond with ⟨more, rfl⟩ | ⟨more, rfl⟩
  · refine ⟨more, ?_, rfl⟩
    rintro rfl
    simp at h
  · simp at h

theorem exists_append_of_isValid {source : String} {offset : Nat}
    (h : String.Pos.Raw.IsValid source ⟨offset⟩) :
    ∃ front back, source.toList = front ++ back ∧ byteSize front = offset := by
  obtain ⟨front, back, rfl, hoffset⟩ := String.Pos.Raw.isValid_iff_exists_append.mp h
  refine ⟨front.toList, back.toList, String.toList_append, ?_⟩
  rw [← utf8ByteSize_eq_byteSize]
  exact (congrArg String.Pos.Raw.byteIdx hoffset).symm

end Text

open Text

namespace Position

/-- The line goes before the column. -/
def key (position : Position) : ℕ ×ₗ ℕ :=
  toLex (position.line.toNat, position.column.toNat)

variable {front more : List Char}

/-- Behind a short text neither number wraps around. -/
theorem key_after (hsize : byteSize front < 2 ^ 32 - 1) :
    (after front).key =
      toLex (front.count '\n' + 1, (front.reverse.takeWhile (· != '\n')).length + 1) := by
  have hlength := length_le_byteSize front
  have hlines : front.count '\n' ≤ front.length := List.count_le_length
  have hcolumns : (front.reverse.takeWhile (· != '\n')).length ≤ front.length := by
    simpa using (List.takeWhile_prefix (· != '\n') (l := front.reverse)).length_le
  rw [key, after, UInt32.toNat_ofNat_of_lt', UInt32.toNat_ofNat_of_lt']
  · rw [UInt32.size]
    omega
  · rw [UInt32.size]
    omega

theorem key_after_append_lt (hmore : more ≠ []) (hsize : byteSize (front ++ more) < 2 ^ 32 - 1) :
    (after front).key < (after (front ++ more)).key := by
  have hfront : byteSize front < 2 ^ 32 - 1 := by
    rw [byteSize_append] at hsize
    omega
  rw [key_after hfront, key_after hsize, Prod.Lex.toLex_lt_toLex]
  by_cases hnewline : '\n' ∈ more
  · -- the column may well get smaller here
    left
    have hpos : 0 < more.count '\n' := List.count_pos_iff.mpr hnewline
    simp only [List.count_append]
    omega
  · right
    have hlength : 0 < more.length := List.length_pos_of_ne_nil hmore
    have hreverse : '\n' ∉ more.reverse := mt List.mem_reverse.mp hnewline
    constructor
    · simp [List.count_eq_zero.mpr hnewline]
    · simp only [List.reverse_append, List.length_append, List.length_reverse,
        List.takeWhile_append_of_pos (bne_newline_of_not_mem hreverse)]
      omega

variable {source first second : List Char}

theorem byteSize_lt_iff_key_lt (hsize : byteSize source < 2 ^ 32 - 1) (hfirst : first <+: source)
    (hsecond : second <+: source) :
    byteSize first < byteSize second ↔ (after first).key < (after second).key := by
  have hgrows : ∀ {short long : List Char}, short <+: source → long <+: source →
      byteSize short < byteSize long → (after short).key < (after long).key := by
    intro short long hshort hlong hlt
    obtain ⟨more, hmore, rfl⟩ := exists_append_of_byteSize_lt hshort hlong hlt
    apply key_after_append_lt hmore
    obtain ⟨rest, rfl⟩ := hlong
    rw [byteSize_append] at hsize
    omega
  constructor
  · exact hgrows hfirst hsecond
  · intro hkey
    by_contra hle
    rcases (Nat.le_of_not_lt hle).eq_or_lt with heq | hlt
    · rw [eq_of_byteSize_eq hsecond hfirst heq] at hkey
      exact hkey.false
    · exact hkey.asymm (hgrows hsecond hfirst hlt)

theorem byteSize_eq_iff_after_eq (hsize : byteSize source < 2 ^ 32 - 1) (hfirst : first <+: source)
    (hsecond : second <+: source) :
    byteSize first = byteSize second ↔ after first = after second := by
  constructor
  · intro h
    rw [eq_of_byteSize_eq hfirst hsecond h]
  · intro h
    have hlt : ¬byteSize first < byteSize second := by
      rw [byteSize_lt_iff_key_lt hsize hfirst hsecond, h]
      exact lt_irrefl _
    have hgt : ¬byteSize second < byteSize first := by
      rw [byteSize_lt_iff_key_lt hsize hsecond hfirst, h]
      exact lt_irrefl _
    omega

end Position

namespace Span

theorem position?_of_size_le {span : Span} {source : String}
    (h : source.utf8ByteSize ≤ span.start) :
    span.position? source = some (Position.after source.toList) := by
  rw [utf8ByteSize_eq_byteSize] at h
  have hwhole := front?_byteSize source.toList []
  rw [List.append_nil] at hwhole
  rw [position?, Nat.min_eq_right h, hwhole]
  rfl

/-- In a source of fewer than `2 ^ 32 - 1` bytes every boundary between characters has a position,
which leads a reader of lines back to it. Positions come in the order of the boundaries, and
different boundaries have different ones. A start behind the source has the position of its end. -/
theorem position?_orders_boundaries (source : String) (hsize : source.utf8ByteSize < 2 ^ 32 - 1) :
    (∀ span : Span, String.Pos.Raw.IsValid source ⟨span.start⟩ →
      ∃ position front back, source.toList = front ++ back ∧ byteSize front = span.start ∧
        span.position? source = some position ∧
        position.split? source.toList = some (front, back.takeWhile (· != '\n'))) ∧
    (∀ span other : Span, String.Pos.Raw.IsValid source ⟨span.start⟩ →
      String.Pos.Raw.IsValid source ⟨other.start⟩ →
      ∃ position next, span.position? source = some position ∧
        other.position? source = some next ∧
        (span.start < other.start ↔ position.key < next.key) ∧
        (span.start = other.start ↔ position = next)) ∧
    ∀ span : Span, source.utf8ByteSize < span.start →
      ∃ position, span.position? source = some position ∧
        (Span.point source.utf8ByteSize).position? source = some position := by
  rw [utf8ByteSize_eq_byteSize] at hsize
  refine ⟨?_, ?_, ?_⟩
  · intro span hvalid
    obtain ⟨front, back, hsource, hstart⟩ := exists_append_of_isValid hvalid
    refine ⟨_, front, back, hsource, hstart, position?_of_append hsource hstart.symm, ?_⟩
    rw [hsource] at hsize ⊢
    apply Position.split?_after
    rw [byteSize_append] at hsize
    omega
  · intro span other hvalid hother
    obtain ⟨front, back, hsource, hstart⟩ := exists_append_of_isValid hvalid
    obtain ⟨longer, rest, hlonger, hnext⟩ := exists_append_of_isValid hother
    have hfront : front <+: source.toList := ⟨back, hsource.symm⟩
    have hprefix : longer <+: source.toList := ⟨rest, hlonger.symm⟩
    refine ⟨_, _, position?_of_append hsource hstart.symm,
      position?_of_append hlonger hnext.symm, ?_, ?_⟩
    · rw [← hstart, ← hnext]
      exact Position.byteSize_lt_iff_key_lt hsize hfront hprefix
    · rw [← hstart, ← hnext]
      exact Position.byteSize_eq_iff_after_eq hsize hfront hprefix
  · intro span hbehind
    exact ⟨_, position?_of_size_le hbehind.le, position?_of_size_le le_rfl⟩

theorem position?_orders_boundaries_wide :
    "aé\n\n字x".utf8ByteSize < 2 ^ 32 - 1 ∧
      (∃ position front back, "aé\n\n字x".toList = front ++ back ∧ byteSize front = 5 ∧
        (Span.mk 5 9).position? "aé\n\n字x" = some position ∧
        position.split? "aé\n\n字x".toList = some (front, back.takeWhile (· != '\n'))) ∧
      (∃ position next, (Span.mk 3 4).position? "aé\n\n字x" = some position ∧
        (Span.mk 8 9).position? "aé\n\n字x" = some next ∧ (3 < 8 ↔ position.key < next.key) ∧
        (3 = 8 ↔ position = next)) ∧
      ∃ position, (Span.mk 12 7).position? "aé\n\n字x" = some position ∧
        (Span.point 9).position? "aé\n\n字x" = some position := by
  have hsize : "aé\n\n字x".utf8ByteSize < 2 ^ 32 - 1 := by decide
  obtain ⟨hreads, horders, hend⟩ := position?_orders_boundaries "aé\n\n字x" hsize
  exact ⟨hsize, hreads ⟨5, 9⟩ (by decide), horders ⟨3, 4⟩ ⟨8, 9⟩ (by decide) (by decide),
    hend ⟨12, 7⟩ (by decide)⟩

end Span

end StraightLine
