import RubyLint.Pattern.Compile
import RubyLint.Proofs.Steps
import RubyLint.Proofs.Text.Class

/-!
# Reading written tokens

What is read at the start of a text when a token was written there.  A name, a predicate or a word
ends where a blank or the text does, so it is read as it was written; a quoted text is read up to
its closing quote, whatever it holds.
-/

namespace RubyLint.Pattern

variable {c : Char} {body name s written later tail : List Char} {offset : Nat}
variable {kind : TokenKind} {ts ts' : List Token}

/-! ## Written tokens -/

/-- What is written at an offset is read as some tokens if `tail` follows it. -/
def Lexes (offset : Nat) (written : List Char) (ts : List Token) (tail : List Char) : Prop :=
  tokensFrom offset (written ++ tail) = (tokensFrom (offset + written.length) tail).map (ts ++ ·)

theorem Lexes.append (h : Lexes offset written ts (later ++ tail))
    (h' : Lexes (offset + written.length) later ts' tail) :
    Lexes offset (written ++ later) (ts ++ ts') tail := by
  rw [Lexes, List.append_assoc, h, h', List.length_append, Nat.add_assoc]
  cases tokensFrom (offset + (written.length + later.length)) tail with
  | error fault => rfl
  | ok following => exact congrArg Except.ok (List.append_assoc _ _ _).symm

theorem Lexes.nil (offset : Nat) (tail : List Char) : Lexes offset [] [] tail := by
  rw [Lexes, List.nil_append, List.length_nil, Nat.add_zero]
  cases tokensFrom offset tail <;> rfl

theorem Lexes.token (body : List Char)
    (h : lexeme? c (body ++ tail) = some (.token kind, body.length)) :
    Lexes offset (c :: body) [⟨kind, String.ofList (c :: body), offset⟩] tail := by
  rw [Lexes, List.cons_append, tokensFrom, h]
  simp only [List.drop_left, List.take_left, List.length_cons, Nat.add_assoc, List.singleton_append]

/-- A blank is skipped, by itself or together with those that follow it. -/
theorem tokensFrom_blank (hc : Text.isBlank c = true) (offset : Nat) (s : List Char) :
    tokensFrom offset (c :: s) = tokensFrom (offset + 1) s := by
  have hlexeme : ∀ {d : Char} {rest : List Char}, Text.isBlank d = true →
      lexeme? d rest = some (.blank, (rest.takeWhile Text.isBlank).length) := by
    intro d rest hd
    rw [lexeme?, if_pos hd]
  rw [tokensFrom, hlexeme hc]
  dsimp only
  cases s with
  | nil => rfl
  | cons d rest =>
      by_cases hd : Text.isBlank d = true
      · rw [tokensFrom, hlexeme hd]
        dsimp only
        rw [List.takeWhile_cons_of_pos hd, List.length_cons, List.drop_succ_cons]
        congr 1
        omega
      · rw [List.takeWhile_cons_of_neg hd]
        rfl

theorem Lexes.blank (h : Lexes (offset + 1) written ts tail) :
    Lexes offset (' ' :: written) ts tail := by
  rw [Lexes, List.cons_append, tokensFrom_blank rfl, h, List.length_cons, Nat.add_right_comm,
    Nat.add_assoc]

theorem lexes_opening (bracket : Bracket) (offset : Nat) (tail : List Char) :
    Lexes offset bracket.opening.toList [⟨.opening bracket, bracket.opening, offset⟩] tail := by
  cases bracket with
  | round => exact Lexes.token [] rfl
  | curly => exact Lexes.token [] rfl

theorem lexes_closing (bracket : Bracket) (offset : Nat) (tail : List Char) :
    Lexes offset bracket.closing.toList [⟨.closing bracket, bracket.closing, offset⟩] tail := by
  cases bracket with
  | round => exact Lexes.token [] rfl
  | curly => exact Lexes.token [] rfl

theorem lexes_rest (offset : Nat) (tail : List Char) :
    Lexes offset "...".toList [⟨.rest, "...", offset⟩] tail :=
  Lexes.token ['.', '.'] rfl

theorem lexes_negation (offset : Nat) (tail : List Char) :
    Lexes offset ['!'] [⟨.negation, "!", offset⟩] tail :=
  Lexes.token [] rfl

/-! ## Names -/

/-- A text at which every word has ended: nothing, or a blank and more. -/
def Ended : List Char → Prop
  | [] => True
  | c :: _ => c = ' '

/-- A name: a letter or an underscore, and word characters. -/
def isName : List Char → Bool
  | [] => false
  | c :: cs => Text.isNameStart c && cs.all Text.isWord

/-- A name, or a name with a question mark or an exclamation mark behind it. -/
def isMarkedName (s : List Char) : Bool :=
  isName s || (isName s.dropLast && (s.getLast? == some '?' || s.getLast? == some '!'))

theorem nameLength_append (hname : isName name = true)
    (hend : ∀ c ∈ tail.head?, Text.isWord c = false) : nameLength (name ++ tail) = name.length := by
  cases name with
  | nil => nomatch hname
  | cons c rest =>
      obtain ⟨hstart, hrest⟩ := Bool.and_eq_true_iff.1 hname
      have hword : ∀ d ∈ rest, Text.isWord d = true := List.all_eq_true.1 hrest
      have htail : tail.takeWhile Text.isWord = [] := by
        cases tail with
        | nil => rfl
        | cons d tail => rw [List.takeWhile_cons_of_neg (by simp [hend d rfl])]
      rw [List.cons_append, nameLength, if_pos hstart, List.takeWhile_append_of_pos hword, htail,
        List.append_nil, List.length_cons, Nat.add_comm]

theorem isWord_of_ended (h : Ended tail) : ∀ c ∈ tail.head?, Text.isWord c = false := by
  cases tail with
  | nil => nofun
  | cons d tail =>
      rintro c hc
      obtain rfl := Option.some.inj hc
      rw [h]
      rfl

theorem exists_of_isMarkedName (h : isMarkedName name = true) :
    ∃ base mark, name = base ++ mark ∧ isName base = true ∧
      (mark = [] ∨ mark = ['?'] ∨ mark = ['!']) := by
  rw [isMarkedName, Bool.or_eq_true, Bool.and_eq_true, Bool.or_eq_true, beq_iff_eq, beq_iff_eq] at h
  rcases h with hname | ⟨hname, hlast | hlast⟩
  · exact ⟨name, [], (List.append_nil _).symm, hname, .inl rfl⟩
  · obtain ⟨base, rfl⟩ := List.getLast?_eq_some_iff.1 hlast
    exact ⟨base, _, rfl, by rwa [List.dropLast_concat] at hname, .inr (.inl rfl)⟩
  · obtain ⟨base, rfl⟩ := List.getLast?_eq_some_iff.1 hlast
    exact ⟨base, _, rfl, by rwa [List.dropLast_concat] at hname, .inr (.inr rfl)⟩

/-- A name with or without a mark is read up to its end. -/
theorem length_of_isMarkedName (hname : isMarkedName name = true) (hend : Ended tail) :
    nameLength (name ++ tail) ≠ 0 ∧ markedLength (name ++ tail) = name.length := by
  obtain ⟨base, mark, rfl, hbase, hmark⟩ := exists_of_isMarkedName hname
  have hlength : nameLength (base ++ mark ++ tail) = base.length := by
    rw [List.append_assoc]
    rcases hmark with rfl | rfl | rfl
    · exact nameLength_append hbase (isWord_of_ended hend)
    · exact nameLength_append hbase (by simp; rfl)
    · exact nameLength_append hbase (by simp; rfl)
  constructor
  · rw [hlength, ne_eq, List.length_eq_zero_iff]
    rintro rfl
    nomatch hbase
  · rw [markedLength, hlength, List.append_assoc, List.drop_left, List.length_append]
    rcases hmark with rfl | rfl | rfl
    · cases tail with
      | nil => rfl
      | cons c tail =>
          obtain rfl : c = ' ' := hend
          rfl
    · rfl
    · rfl

/-- What a name starts with is an ASCII character that starts nothing else. -/
theorem isNameStart_ascii : ∀ code < 128, Text.isNameStart (Char.ofNat code) = true →
    Text.isBlank (Char.ofNat code) = false ∧ Text.isDigit (Char.ofNat code) = false ∧
      Char.ofNat code ∉ "()\x7b\x7d.\":-$!#".toList := by
  decide +kernel

theorem toNat_lt_of_isNameStart (hc : Text.isNameStart c = true) : c.toNat < 128 := by
  delta Text.isNameStart Char.isAlpha Char.isUpper Char.isLower at hc
  simp only [Bool.or_eq_true, Bool.decide_and, Bool.and_eq_true, decide_eq_true_eq, beq_iff_eq,
    ge_iff_le, UInt32.le_iff_toNat_le] at hc
  rcases hc with (⟨-, hle⟩ | ⟨-, hle⟩) | rfl
  · exact Nat.lt_of_le_of_lt hle (by decide)
  · exact Nat.lt_of_le_of_lt hle (by decide)
  · decide

theorem lexeme?_of_isNameStart (hc : Text.isNameStart c = true) (rest : List Char) :
    lexeme? c rest = some (.token .word, markedLength (c :: rest) - 1) := by
  obtain ⟨hblank, hdigit, hmarks⟩ : Text.isBlank c = false ∧ Text.isDigit c = false ∧
      c ∉ "()\x7b\x7d.\":-$!#".toList := by
    have hascii := isNameStart_ascii c.toNat (toNat_lt_of_isNameStart hc)
    rw [Char.ofNat_toNat] at hascii
    exact hascii hc
  simp at hmarks
  simp [lexeme?, hblank, hdigit, hmarks, hc]

theorem lexes_word (hname : isName name = true) (htail : Ended tail) (offset : Nat) :
    Lexes offset name [⟨.word, String.ofList name, offset⟩] tail := by
  obtain ⟨-, hlength⟩ := length_of_isMarkedName (by rw [isMarkedName, hname]; rfl) htail
  cases name with
  | nil => nomatch hname
  | cons c cs =>
      refine Lexes.token _ ?_
      rw [lexeme?_of_isNameStart (Bool.and_eq_true_iff.1 hname).1, ← List.cons_append, hlength]
      rfl

theorem lexes_predicate (hname : isMarkedName name = true) (htail : Ended tail) (offset : Nat) :
    Lexes offset ('#' :: name) [⟨.predicate, String.ofList ('#' :: name), offset⟩] tail := by
  refine Lexes.token _ ?_
  obtain ⟨hne, hlength⟩ := length_of_isMarkedName hname htail
  cases name with
  | nil => nomatch hname
  | cons c cs =>
      have hblank : Text.isBlank '#' = false := rfl
      have hdigit : Text.isDigit '#' = false := rfl
      rw [List.cons_append] at hne hlength
      simp [lexeme?, hblank, hdigit, hlength, hne]

/-! ## Capture marks -/

/-- A text whose start is not taken for the name of a capture. -/
def Unnamed (s : List Char) : Prop :=
  nameLength s = 0 ∨ (s.drop (nameLength s)).head? ≠ some '='

theorem toList_captureMark (name : String) :
    (captureMark (some name)).toList = '$' :: (name.toList ++ ['=']) := by
  simp [captureMark]

theorem lexes_capture {mark : Option String} (hmark : ∀ name ∈ mark, isName name.toList = true)
    (hplain : mark = none → Unnamed tail) (offset : Nat) :
    Lexes offset (captureMark mark).toList [⟨.capture mark, captureMark mark, offset⟩] tail := by
  have hlexeme : ∀ cs, lexeme? '$' cs =
      if nameLength cs != 0 && (cs.drop (nameLength cs)).head? == some '=' then
        some (.token (.capture (some (String.ofList (cs.take (nameLength cs))))), nameLength cs + 1)
      else some (.token (.capture none), 0) := fun _ => rfl
  cases mark with
  | none =>
      change Lexes offset ['$'] _ tail
      refine Lexes.token [] ?_
      rw [List.nil_append, hlexeme, if_neg]
      · rfl
      · rw [Bool.and_eq_true, bne_iff_ne, beq_iff_eq, not_and_or, not_not]
        exact hplain rfl
  | some name =>
      have hname : isName name.toList = true := hmark name rfl
      have htoken : captureMark (some name) = String.ofList ('$' :: (name.toList ++ ['='])) := by
        rw [← toList_captureMark, String.ofList_toList]
      have hlength : nameLength (name.toList ++ ['='] ++ tail) = name.toList.length := by
        rw [List.append_assoc]
        refine nameLength_append hname fun c hc => ?_
        obtain rfl := Option.some.inj hc
        rfl
      rw [toList_captureMark, htoken]
      refine Lexes.token _ ?_
      rw [hlexeme, hlength, if_pos]
      · simp
      · simp
        rintro rfl
        nomatch hname

/-! ## Quoted texts -/

/-- A text with a backslash before each of its quotes and backslashes. -/
def escaped (value : List Char) : List Char :=
  value.flatMap fun c => if c == '"' || c == '\\' then ['\\', c] else [c]

def inQuotes (value : List Char) : List Char :=
  '"' :: (escaped value ++ ['"'])

theorem escaped_cons (c : Char) (value : List Char) :
    escaped (c :: value) = (if c == '"' || c == '\\' then ['\\', c] else [c]) ++ escaped value :=
  List.flatMap_cons

theorem ne_newline_of_escaped (hc : (c == '"' || c == '\\') = true) : ¬(c == '\n') = true := by
  intro h
  obtain rfl := beq_iff_eq.1 h
  nomatch hc

theorem stringLength_escaped (value tail : List Char) :
    stringLength (escaped value ++ '"' :: tail) = some ((escaped value).length + 1) := by
  induction value with
  | nil => rfl
  | cons c value ih =>
      rw [escaped_cons]
      split
      next hc =>
        change stringLength ('\\' :: c :: (escaped value ++ '"' :: tail)) = _
        rw [stringLength, if_neg (ne_newline_of_escaped hc), ih]
        rfl
      next hc =>
        simp only [Bool.or_eq_true, beq_iff_eq, not_or] at hc
        change stringLength (c :: (escaped value ++ '"' :: tail)) = _
        rw [stringLength, ih]
        · rfl
        · exact hc.1
        · exact fun heq => absurd heq hc.2
        · exact fun _ _ heq => absurd heq hc.2

theorem unescape_escaped (value : List Char) : unescape (escaped value) = value := by
  induction value with
  | nil => rfl
  | cons c value ih =>
      rw [escaped_cons]
      split
      next hc =>
        change unescape ('\\' :: c :: escaped value) = _
        rw [unescape, if_neg (ne_newline_of_escaped hc), ih]
      next hc =>
        simp only [Bool.or_eq_true, beq_iff_eq, not_or] at hc
        change unescape (c :: escaped value) = _
        rw [unescape, ih]
        · exact fun heq => absurd heq hc.2
        · exact fun _ _ heq => absurd heq hc.2

theorem stringValue_inQuotes (value : List Char) :
    stringValue (String.ofList (inQuotes value)) = String.ofList value := by
  rw [stringValue, String.toList_ofList, inQuotes, List.drop_succ_cons, List.drop_zero,
    List.dropLast_concat, unescape_escaped]

/-- A quoted text is one token, whatever it holds and whatever follows it. -/
theorem lexes_inQuotes (value : List Char) (offset : Nat) (tail : List Char) :
    Lexes offset (inQuotes value) [⟨.string, String.ofList (inQuotes value), offset⟩] tail := by
  refine Lexes.token _ ?_
  have hlexeme : ∀ cs, lexeme? '"' cs = (stringLength cs).map fun n => (.token .string, n) :=
    fun _ => rfl
  rw [hlexeme, List.append_assoc, List.singleton_append, stringLength_escaped]
  simp

end RubyLint.Pattern
