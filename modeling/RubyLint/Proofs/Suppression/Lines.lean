import RubyLint.Proofs.Text.Lines
import RubyLint.Suppression

/-!
# The line of an offense and the line of its directives

Directives are read off the lines of the characters, offenses are located by bytes.  The two count
lines alike, so an offense is silenced by the directives of the very line that holds its first byte,
whatever characters stand before it.
-/

namespace RubyLint.Suppression

variable {text : String} {line : List Char} {k o : Nat}

def Lists (line : List Char) (pattern : String) : Prop :=
  ∃ body ∈ directivesIn (line.length + 1) line, pattern ∈ patternsOf body

theorem mem_linePatterns {pattern : String} : pattern ∈ linePatterns line ↔ Lists line pattern := by
  rw [linePatterns, List.mem_eraseDups, List.mem_flatMap, Lists]

/-! ## Patterns by line number -/

/-- Under the number of a line are its patterns, also where a line without patterns has no
entry. -/
theorem lookup_numbered (lines : List (List Char)) (first k : Nat) :
    ((((lines.mapIdx fun i line => (i + first, linePatterns line)).filter
      fun entry => !entry.2.isEmpty).lookup (k + first)).getD []) =
        (lines[k]?.map linePatterns).getD [] := by
  induction lines generalizing first k with
  | nil => rfl
  | cons line lines ih =>
      have hshift : (fun i line => (i + 1 + first, linePatterns line)) =
          fun i line => (i + (1 + first), linePatterns line) := by
        simp only [Nat.add_assoc]
      rw [List.mapIdx_cons, hshift, List.filter_cons, Nat.zero_add]
      cases k with
      | zero =>
          split
          next => simp
          next hempty =>
            -- The line has no entry, and the lines after it have higher numbers.
            have hnone : linePatterns line = [] := by simpa using hempty
            rw [List.getElem?_cons_zero, Option.map_some, Option.getD_some, hnone,
              List.lookup_eq_none_iff.2, Option.getD_none]
            intro entry hentry
            obtain ⟨i, hi, rfl⟩ := List.mem_mapIdx.1 (List.mem_filter.1 hentry).1
            simp
            omega
      | succ k =>
          rw [List.getElem?_cons_succ, ← ih (1 + first) k, Nat.add_assoc]
          split
          next =>
            rw [List.lookup_cons, beq_eq_false_iff_ne.2 (by omega)]
          next => rfl

theorem lookup_lines (hline : (linesOf text)[k]? = some line) :
    ((ofText text).lines.lookup (k + 1)).getD [] = linePatterns line := by
  rw [ofText, lookup_numbered, hline]
  rfl

theorem isSuppressed_iff (hline : (linesOf text)[k]? = some line) {rule : String} {start : Int}
    (hstart : (ofText text).index.lineOf start = k + 1) :
    isSuppressed (ofText text) rule start = true ↔
      ∃ pattern, Lists line pattern ∧ (rule = pattern ∨ Glob.matchesText pattern rule = true) := by
  rw [isSuppressed, hstart, lookup_lines hline, List.any_eq_true]
  simp only [mem_linePatterns, Bool.or_eq_true, beq_iff_eq]

/-! ## The line of a byte -/

def bytesBefore (text : String) (k : Nat) : Nat :=
  (((linesOf text).take k).map fun line => (Utf8.encodeChars line).length + 1).sum

/-- An offset is on a line if one of the bytes of the line stands there, or the newline after them,
or the end of the text. -/
structure Holds (text : String) (k : Nat) (line : List Char) (o : Nat) : Prop where
  isLine : (linesOf text)[k]? = some line
  first_le : bytesBefore text k ≤ o
  le_last : o ≤ bytesBefore text k + (Utf8.encodeChars line).length

theorem splitOn_encode (text : String) :
    (Utf8.encode text).splitOn 10 = (linesOf text).map Utf8.encodeChars :=
  Utf8.splitOn_encodeChars text.toList

theorem bytesBefore_eq (text : String) (k : Nat) :
    bytesBefore text k = LineIndex.offsetOf ((Utf8.encode text).splitOn 10) k := by
  rw [bytesBefore, LineIndex.offsetOf, splitOn_encode, ← List.map_take, List.map_map]
  rfl

theorem getElem?_splitOn_encode (hline : (linesOf text)[k]? = some line) :
    ((Utf8.encode text).splitOn 10)[k]? = some (Utf8.encodeChars line) := by
  rw [splitOn_encode, List.getElem?_map, hline, Option.map_some]

theorem exists_line_of_getElem? {bytes : List UInt8}
    (h : ((Utf8.encode text).splitOn 10)[k]? = some bytes) :
    ∃ line, (linesOf text)[k]? = some line ∧ bytes = Utf8.encodeChars line := by
  rw [splitOn_encode, List.getElem?_map, Option.map_eq_some_iff] at h
  obtain ⟨line, hline, hbytes⟩ := h
  exact ⟨line, hline, hbytes.symm⟩

/-- An offset is on the line whose number the line index gives it. -/
theorem holds_iff (ho : o ≤ (Utf8.encode text).length) (hline : (linesOf text)[k]? = some line) :
    Holds text k line o ↔ (ofText text).index.lineOf o = k + 1 := by
  have hwithin := LineIndex.lineOf_eq_succ_iff_within ho (getElem?_splitOn_encode hline)
  rw [← bytesBefore_eq] at hwithin
  exact ⟨fun h => hwithin.2 ⟨h.first_le, h.le_last⟩,
    fun h => ⟨hline, (hwithin.1 h).1, (hwithin.1 h).2⟩⟩

/-- The line index has the lines of a text, each between its two ends.  Every offset is on one of
them, and an offense that starts there is silenced by a directive on this very line which lists the
rule or a pattern for it, and by nothing else. -/
theorem isSuppressed_ofText (text : String) :
    (ofText text).index.lineCount = (linesOf text).length ∧
    (∀ k line, (linesOf text)[k]? = some line → ∃ first last : Nat,
      (ofText text).index.lineStart? ((k + 1 : Nat) : Int) = some first ∧
        (ofText text).index.lineEnd? ((k + 1 : Nat) : Int) = some (last : Int) ∧ first ≤ last ∧
        ((Utf8.encode text).drop first).take (last - first) = Utf8.encodeChars line) ∧
    ∀ o ≤ (Utf8.encode text).length, ∃ k line, Holds text k line o ∧
      (∀ k' line', Holds text k' line' o → k' = k ∧ line' = line) ∧
      ∀ rule, isSuppressed (ofText text) rule o = true ↔
        ∃ pattern, Lists line pattern ∧
          (rule = pattern ∨ Glob.matchesText pattern rule = true) := by
  refine ⟨?_, fun k line hline => ?_, fun o ho => ?_⟩
  · change (LineIndex.ofBytes (Utf8.encode text)).starts.length = _
    rw [LineIndex.length_starts, splitOn_encode, List.length_map]
  · have hbytes := getElem?_splitOn_encode hline
    refine ⟨_, _, LineIndex.lineStart?_succ hbytes, LineIndex.lineEnd?_succ hbytes,
      Nat.le_add_right _ _, ?_⟩
    rw [Nat.add_sub_cancel_left, LineIndex.slice_line hbytes]
  · obtain ⟨k, bytes, hbytes, hnumber⟩ := LineIndex.exists_line (Utf8.encode text) o
    obtain ⟨line, hline, rfl⟩ := exists_line_of_getElem? hbytes
    refine ⟨k, line, (holds_iff ho hline).2 hnumber, fun k' line' hholds => ?_,
      fun rule => isSuppressed_iff hline hnumber⟩
    have hnumber' := (holds_iff ho hholds.isLine).1 hholds
    obtain rfl : k' = k := Nat.succ.inj (hnumber'.symm.trans hnumber)
    exact ⟨rfl, Option.some.inj (hholds.isLine.symm.trans hline)⟩

/-- A text with wide characters, a line separator that ends no line, a carriage return and an empty
line before its directive. -/
def wideText : String :=
  "\u00e9\u2028\r\n\n\u03c0 # treecop: ignore[layout.*]"

theorem isSuppressed_ofText_wide :
    let line := "\u03c0 # treecop: ignore[layout.*]".toList
    Holds wideText 2 line 9 ∧
    (∃ first last : Nat, (ofText wideText).index.lineStart? 3 = some first ∧
      (ofText wideText).index.lineEnd? 3 = some (last : Int) ∧
      ((Utf8.encode wideText).drop first).take (last - first) = Utf8.encodeChars line) ∧
    isSuppressed (ofText wideText) "layout.one" 9 = true ∧
    ∃ pattern, Lists line pattern ∧
      ("layout.one" = pattern ∨ Glob.matchesText pattern "layout.one" = true) := by
  intro line
  have hheld : Holds wideText 2 line 9 :=
    ⟨by decide +kernel, by decide +kernel, by decide +kernel⟩
  have hsuppressed : isSuppressed (ofText wideText) "layout.one" 9 = true := by decide +kernel
  obtain ⟨-, hends, hholds⟩ := isSuppressed_ofText wideText
  obtain ⟨first, last, hfirst, hlast, -, hslice⟩ := hends 2 line hheld.isLine
  obtain ⟨k, line', -, hunique, hiff⟩ := hholds 9 (by decide +kernel)
  obtain ⟨rfl, rfl⟩ := hunique 2 line hheld
  exact ⟨hheld, ⟨first, last, hfirst, hlast, hslice⟩, hsuppressed, (hiff _).1 hsuppressed⟩

end RubyLint.Suppression
