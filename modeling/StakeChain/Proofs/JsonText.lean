import Mathlib.Data.List.TakeDrop
import StakeChain.Json.Printer
import StakeChain.Json.Reader
/-!
What is written as JSON is read back. Both forms of the writer are one layout with other blanks: a part of a
document is set off by blanks, which the reader passes over wherever it looks for a part. So one proof, by
induction on the document, serves the text on one line and the text laid out. An integer is the one part without
an end of its own; what follows it must not go on with a number, and in a layout that is a blank, a comma or a
closing bracket.
-/

namespace StakeChain.Json

/-! ### Strings -/

theorem hexNumber?_control : ∀ n < 32, hexNumber? ('0' :: '0' :: hexPair n) = some n := by decide

theorem pieces?_short {e c : Char} {cs : List Char} (hc : shortEscape? e = some c) (he : e ≠ 'u') :
    pieces? ('\x5c' :: e :: cs) = (pieces? cs).map fun r => (.char c :: r.1, r.2) := by
  rw [pieces?, hc]
  · cases pieces? cs <;> rfl
  · intro _ _ _ _ _ heq
    exact absurd heq he

theorem pieces?_control {n : Nat} {cs : List Char} (h : n < 32) :
    pieces? ('\x5c' :: 'u' :: '0' :: '0' :: hexPair n ++ cs) =
      (pieces? cs).map fun r => (.unit n :: r.1, r.2) := by
  have hnumber := hexNumber?_control n h
  rw [hexPair] at hnumber ⊢
  simp only [List.cons_append, List.nil_append, pieces?, hnumber]
  cases pieces? cs <;> rfl

theorem pieces?_plain {c : Char} {cs : List Char} (hquote : c ≠ '\x22') (hback : c ≠ '\x5c')
    (hprint : ¬ c < ' ') : pieces? (c :: cs) = (pieces? cs).map fun r => (.char c :: r.1, r.2) := by
  rw [pieces?, if_neg hprint]
  · exact hquote
  · exact fun _ _ _ _ _ heq => absurd heq hback
  · exact fun _ _ heq => absurd heq hback

theorem spell?_unit {n : Nat} {ps : List Piece} (h : n < 0xd800) :
    spell? (.unit n :: ps) = (spell? ps).map (Char.ofNat n :: ·) := by
  have hhigh : ¬ (0xd800 ≤ n ∧ n < 0xdc00) := by omega
  have hlow : ¬ (0xdc00 ≤ n ∧ n < 0xe000) := by omega
  rw [spell?.eq_def]
  simp only [if_neg hhigh, if_neg hlow]

/-- A character inside a string is one piece, which spells the character. -/
theorem exists_piece (c : Char) : ∃ p : Piece,
    (∀ cs, pieces? (escape c ++ cs) = (pieces? cs).map fun r => (p :: r.1, r.2)) ∧
    ∀ ps, spell? (p :: ps) = (spell? ps).map (c :: ·) := by
  unfold escape
  split
  case h_8 hquote hback _ _ _ _ _ =>
    split
    · rename_i hcontrol
      have hlt : c.toNat < 32 := hcontrol
      refine ⟨.unit c.toNat, fun cs => pieces?_control hlt, fun ps => ?_⟩
      rw [spell?_unit (by omega), Char.ofNat_toNat]
    · rename_i hprint
      exact ⟨.char c, fun cs => pieces?_plain hquote hback hprint, fun ps => rfl⟩
  all_goals exact ⟨.char _, fun cs => pieces?_short rfl (by decide), fun ps => rfl⟩

/-- The text of a string literal is read back up to its closing quote. -/
theorem string?_escaped (cs rest : List Char) :
    string? (cs.flatMap escape ++ '\x22' :: rest) = some (some (String.ofList cs), rest) := by
  have hpieces : ∃ ps, pieces? (cs.flatMap escape ++ '\x22' :: rest) = some (ps, rest) ∧
      spell? ps = some cs := by
    induction cs with
    | nil => exact ⟨[], rfl, rfl⟩
    | cons c cs ih =>
      obtain ⟨ps, hps, hspell⟩ := ih
      obtain ⟨p, hp, hc⟩ := exists_piece c
      refine ⟨p :: ps, ?_, ?_⟩
      · rw [List.flatMap_cons, List.append_assoc, hp, hps]
        rfl
      · rw [hc, hspell]
        rfl
  obtain ⟨ps, hps, hspell⟩ := hpieces
  simp only [string?, hps, Option.map_some, hspell]

/-! ### Numbers -/

/-- A text that does not go on with a number. -/
def Stops (cs : List Char) : Prop :=
  ∀ c ∈ cs.head?, isDigit c = false ∧ c ≠ '.' ∧ c ≠ 'e' ∧ c ≠ 'E'

theorem isDigit_of_mem_toDigits {n : Nat} {c : Char} (h : c ∈ Nat.toDigits 10 n) : isDigit c = true := by
  have hdigit := Nat.isDigit_of_mem_toDigits (by omega) (by omega) h
  simpa [isDigit, Char.isDigit, Char.le_def] using hdigit

/-- The digits of a number that is not zero begin with another digit than zero. -/
theorem toDigits_head {n : Nat} (h : 0 < n) : ∃ d ds, Nat.toDigits 10 n = d :: ds ∧ d ≠ '0' := by
  induction n using Nat.strongRecOn with
  | ind n ih =>
    rw [Nat.toDigits_eq_if (by omega)]
    split
    · rename_i hlt
      have hdigits : ∀ n < 10, 0 < n → Nat.digitChar n ≠ '0' := by decide
      exact ⟨_, [], rfl, hdigits n hlt h⟩
    · obtain ⟨d, ds, hds, hd⟩ := ih (n / 10) (by omega) (by omega)
      exact ⟨d, _, by rw [hds]; rfl, hd⟩

theorem digits?_toDigits (n : Nat) {rest : List Char} (h : Stops rest) :
    digits? (Nat.toDigits 10 n ++ rest) = some (Nat.toDigits 10 n, rest) := by
  have hall : ∀ c ∈ Nat.toDigits 10 n, isDigit c = true := fun c hc => isDigit_of_mem_toDigits hc
  have hrest : rest.takeWhile isDigit = [] ∧ rest.dropWhile isDigit = rest := by
    cases rest with
    | nil => exact ⟨rfl, rfl⟩
    | cons c cs =>
      have hc := (h c rfl).1
      exact ⟨by simp [hc], by simp [hc]⟩
  rw [digits?, List.span_eq_takeWhile_dropWhile, List.takeWhile_append_of_pos hall,
    List.dropWhile_append_of_pos hall, hrest.1, hrest.2, List.append_nil]
  cases hds : Nat.toDigits 10 n with
  | nil => exact absurd hds Nat.toDigits_ne_nil
  | cons d ds => rfl

theorem integerPart?_toDigits (n : Nat) {rest : List Char} (h : Stops rest) :
    integerPart? (Nat.toDigits 10 n ++ rest) = some (Nat.toDigits 10 n, rest) := by
  rcases Nat.eq_zero_or_pos n with rfl | hn
  · rfl
  · obtain ⟨d, ds, hds, hd⟩ := toDigits_head hn
    rw [← digits?_toDigits n h, hds]
    unfold integerPart?
    split
    · rename_i heq
      exact absurd (List.cons.inj heq).1 hd
    · rfl

theorem fraction?_stops {cs : List Char} (h : Stops cs) : fraction? cs = some ([], cs) := by
  unfold fraction?
  split
  · rename_i rest
    exact absurd rfl (h '.' rfl).2.1
  · rfl

theorem exponent?_stops {cs : List Char} (h : Stops cs) : exponent? cs = some ([], cs) := by
  cases cs with
  | nil => rfl
  | cons c cs =>
    obtain ⟨-, -, hlower, hupper⟩ := h c rfl
    simp [exponent?, hlower, hupper]

theorem decimalValue_toDigits (n : Nat) : decimalValue (Nat.toDigits 10 n) = n :=
  Nat.ofDigitChars_toDigits (by omega) (by omega)

theorem toDigits_ne_minus (n : Nat) (rest tail : List Char) : Nat.toDigits 10 n ++ rest ≠ '-' :: tail := by
  intro heq
  cases hds : Nat.toDigits 10 n with
  | nil => exact absurd hds Nat.toDigits_ne_nil
  | cons d ds =>
    have hd : isDigit d = true := isDigit_of_mem_toDigits (n := n) (by simp [hds])
    rw [hds] at heq
    rw [(List.cons.inj heq).1] at hd
    simp [isDigit] at hd

/-- An integer is read back where what follows is no part of a number. -/
theorem number?_toString (n : Int) {rest : List Char} (h : Stops rest) :
    number? ((toString n).toList ++ rest) = some (.int n, rest) := by
  have hparts : ∀ m, integerPart? (Nat.toDigits 10 m ++ rest) = some (Nat.toDigits 10 m, rest) :=
    fun m => integerPart?_toDigits m h
  rw [Int.toString_eq_repr, Int.repr_eq_if]
  split
  · rename_i hn
    rw [Nat.toList_repr, number?]
    · simp only [hparts, fraction?_stops h, exponent?_stops h, Option.bind_eq_bind, Option.bind_some,
        decimalValue_toDigits]
      simp [Int.toNat_of_nonneg hn]
    · exact fun tail => toDigits_ne_minus _ _ tail
  · rename_i hn
    have hminus : "-".toList = ['-'] := rfl
    have hneg : ((-n).toNat : Int) = -n := Int.toNat_of_nonneg (by omega)
    have hzero : ¬ (-n).toNat = 0 := by omega
    rw [String.toList_append, Nat.toList_repr, hminus]
    simp only [number?, List.cons_append, List.nil_append, hparts, fraction?_stops h, exponent?_stops h,
      Option.bind_eq_bind, Option.bind_some, decimalValue_toDigits]
    simp [hneg, hzero]

/-! ### Layouts -/

theorem skipSpace_append {ws cs : List Char} (h : ∀ c ∈ ws, isSpace c = true) :
    skipSpace (ws ++ cs) = skipSpace cs := List.dropWhile_append_of_pos h

theorem skipSpace_cons {c : Char} {cs : List Char} (h : isSpace c = false) :
    skipSpace (c :: cs) = c :: cs := by simp [skipSpace, h]

/-- What is put between the parts of a text: blanks only. -/
structure Layout where
  newline : Nat → List Char
  gap : List Char
  newline_isSpace : ∀ level, ∀ c ∈ newline level, isSpace c = true
  gap_isSpace : ∀ c ∈ gap, isSpace c = true

namespace Layout

mutual

/-- The text of a document in a layout, its first line at a level. -/
def print (y : Layout) (level : Nat) : Document → List Char
  | .list [] => ['[', ']']
  | .list items => '[' :: y.printItems (level + 1) items ++ y.newline level ++ [']']
  | .table [] => ['\x7b', '\x7d']
  | .table members => '\x7b' :: y.printMembers (level + 1) members ++ y.newline level ++ ['\x7d']
  | d => leaf d

def printItems (y : Layout) (level : Nat) : List Document → List Char
  | [] => []
  | [d] => y.newline level ++ y.print level d
  | d :: rest => y.newline level ++ y.print level d ++ ',' :: y.printItems level rest

def printMembers (y : Layout) (level : Nat) : List (String × Document) → List Char
  | [] => []
  | [(key, d)] => y.newline level ++ quoted key ++ ':' :: y.gap ++ y.print level d
  | (key, d) :: rest =>
    y.newline level ++ quoted key ++ ':' :: y.gap ++ y.print level d ++ ',' :: y.printMembers level rest

end

theorem printItems_cons (y : Layout) (level : Nat) (d : Document) {items : List Document} (h : items ≠ []) :
    y.printItems level (d :: items) = y.newline level ++ y.print level d ++ ',' :: y.printItems level items := by
  rw [printItems]
  exact h

/-- The items begin with the first one on its line. -/
theorem exists_printItems (y : Layout) (level : Nat) (d : Document) (items : List Document) : ∃ more,
    y.printItems level (d :: items) = y.newline level ++ (y.print level d ++ more) := by
  cases items with
  | nil => exact ⟨[], by rw [printItems, List.append_nil]⟩
  | cons e items =>
    rw [y.printItems_cons level d (by simp), List.append_assoc]
    exact ⟨_, rfl⟩

theorem printMembers_cons (y : Layout) (level : Nat) (key : String) (d : Document)
    {members : List (String × Document)} (h : members ≠ []) :
    y.printMembers level ((key, d) :: members) =
      y.newline level ++ quoted key ++ ':' :: y.gap ++ y.print level d ++ ',' :: y.printMembers level members := by
  rw [printMembers]
  exact h

/-- The members begin with the first key on its line. -/
theorem exists_printMembers (y : Layout) (level : Nat) (m : String × Document)
    (members : List (String × Document)) : ∃ more,
    y.printMembers level (m :: members) = y.newline level ++ '\x22' :: more := by
  obtain ⟨key, d⟩ := m
  cases members with
  | nil =>
    rw [printMembers, quoted]
    simp only [List.append_assoc, List.cons_append]
    exact ⟨_, rfl⟩
  | cons e members =>
    rw [y.printMembers_cons level key d (by simp), quoted]
    simp only [List.append_assoc, List.cons_append]
    exact ⟨_, rfl⟩

/-- Nothing between the parts. -/
def oneLine : Layout := ⟨fun _ => [], [], by simp, by simp⟩

/-- A line for every part, two blanks in for each level. -/
def indented : Layout where
  newline := lineBreak
  gap := [' ']
  newline_isSpace level c hc := by
    rcases List.mem_cons.1 hc with rfl | hc
    · rfl
    · rw [List.eq_of_mem_replicate hc]
      rfl
  gap_isSpace := by simp [isSpace]

mutual

theorem print_oneLine : ∀ (level : Nat) (d : Document), oneLine.print level d = compact d
  | level, .list [] => rfl
  | level, .list (d :: items) => by
    rw [print, compact, printItems_oneLine (level + 1) (d :: items)]
    · simp [oneLine]
    · simp
  | level, .table [] => rfl
  | level, .table (m :: members) => by
    rw [print, compact, printMembers_oneLine (level + 1) (m :: members)]
    · simp [oneLine]
    · simp
  | level, .null => rfl
  | level, .bool _ => rfl
  | level, .int _ => rfl
  | level, .decimal _ => rfl
  | level, .string _ => rfl
  | level, .unreadable => rfl

theorem printItems_oneLine : ∀ (level : Nat) (items : List Document),
    oneLine.printItems level items = compactItems items
  | level, [] => rfl
  | level, [d] => by
    rw [printItems, compactItems, print_oneLine level d]
    rfl
  | level, d :: e :: rest => by
    rw [printItems, compactItems, print_oneLine level d, printItems_oneLine level (e :: rest)]
    · simp [oneLine]
    · simp
    · simp

theorem printMembers_oneLine : ∀ (level : Nat) (members : List (String × Document)),
    oneLine.printMembers level members = compactMembers members
  | level, [] => rfl
  | level, [(key, d)] => by
    rw [printMembers, compactMembers, print_oneLine level d]
    simp [oneLine]
  | level, (key, d) :: m :: rest => by
    rw [printMembers, compactMembers, print_oneLine level d, printMembers_oneLine level (m :: rest)]
    · simp [oneLine]
    · simp
    · simp

end

mutual

theorem print_indented : ∀ (level : Nat) (d : Document), indented.print level d = laidOut level d
  | level, .list [] => rfl
  | level, .list (d :: items) => by
    rw [print, laidOut, printItems_indented (level + 1) (d :: items)]
    · simp [indented]
    · simp
    · simp
  | level, .table [] => rfl
  | level, .table (m :: members) => by
    rw [print, laidOut, printMembers_indented (level + 1) (m :: members)]
    · simp [indented]
    · simp
    · simp
  | level, .null => rfl
  | level, .bool _ => rfl
  | level, .int _ => rfl
  | level, .decimal _ => rfl
  | level, .string _ => rfl
  | level, .unreadable => rfl

theorem printItems_indented : ∀ (level : Nat) (items : List Document),
    indented.printItems level items = laidOutItems level items
  | level, [] => rfl
  | level, [d] => by
    rw [printItems, laidOutItems, print_indented level d]
    rfl
  | level, d :: e :: rest => by
    rw [printItems, laidOutItems, print_indented level d, printItems_indented level (e :: rest)]
    · simp [indented]
    · simp
    · simp

theorem printMembers_indented : ∀ (level : Nat) (members : List (String × Document)),
    indented.printMembers level members = laidOutMembers level members
  | level, [] => rfl
  | level, [(key, d)] => by
    rw [printMembers, laidOutMembers, print_indented level d]
    simp [indented]
  | level, (key, d) :: m :: rest => by
    rw [printMembers, laidOutMembers, print_indented level d, printMembers_indented level (m :: rest)]
    · simp [indented]
    · simp
    · simp

end

end Layout

/-! ### Reading a layout -/

/-- What is read back as it was: every number is an integer, and nothing is without a reading. -/
inductive Plain : Document → Prop where
  | null : Plain .null
  | bool (b : Bool) : Plain (.bool b)
  | int (n : Int) : Plain (.int n)
  | string (s : String) : Plain (.string s)
  | list {items : List Document} : (∀ d ∈ items, Plain d) → Plain (.list items)
  | table {members : List (String × Document)} : (∀ m ∈ members, Plain m.2) → Plain (.table members)

theorem value?_append {ws cs : List Char} (h : ∀ c ∈ ws, isSpace c = true) (depth : Nat) :
    value? depth (ws ++ cs) = value? depth cs := by
  cases depth with
  | zero => rw [value?, value?]
  | succ depth => rw [value?, value?, skipSpace_append h]

theorem stops_append {ws cs : List Char} (h : ∀ c ∈ ws, isSpace c = true) (hcs : Stops cs) :
    Stops (ws ++ cs) := by
  cases ws with
  | nil => exact hcs
  | cons w ws =>
    intro c hc
    obtain rfl : w = c := by simpa using hc
    have hw := h w List.mem_cons_self
    simp only [isSpace, Bool.or_eq_true, beq_iff_eq] at hw
    rcases hw with ((rfl | rfl) | rfl) | rfl <;> decide

theorem value?_list {depth : Nat} {cs : List Char} (h : ∀ tail, skipSpace cs ≠ ']' :: tail) :
    value? (depth + 1) ('[' :: cs) = (items? depth cs).map fun r => (.list r.1, r.2) := by
  rw [value?, skipSpace_cons rfl]
  simp only

theorem value?_table {depth : Nat} {cs : List Char} (h : ∀ tail, skipSpace cs ≠ '\x7d' :: tail) :
    value? (depth + 1) ('\x7b' :: cs) = (members? depth cs).map fun r => (ofMembers r.1, r.2) := by
  rw [value?, skipSpace_cons rfl]
  simp only

/-- The text of an integer begins with a minus or a digit. -/
theorem toString_head (n : Int) : ∃ c cs, (toString n).toList = c :: cs ∧ (c = '-' ∨ isDigit c = true) := by
  rw [Int.toString_eq_repr, Int.repr_eq_if]
  split
  · rw [Nat.toList_repr]
    cases hds : Nat.toDigits 10 n.toNat with
    | nil => exact absurd hds Nat.toDigits_ne_nil
    | cons d ds => exact ⟨d, ds, rfl, .inr (isDigit_of_mem_toDigits (n := n.toNat) (by simp [hds]))⟩
  · rw [String.toList_append]
    exact ⟨'-', _, rfl, .inl rfl⟩

/-- The text of a value begins neither with a blank nor with the end of a list. -/
theorem Plain.exists_head {d : Document} (h : Plain d) (y : Layout) (level : Nat) : ∃ c cs,
    y.print level d = c :: cs ∧ isSpace c = false ∧ c ≠ ']' := by
  cases h with
  | null => exact ⟨'n', _, rfl, rfl, by decide⟩
  | bool b => cases b <;> exact ⟨_, _, rfl, rfl, by decide⟩
  | int n =>
    obtain ⟨c, cs, htext, hc⟩ := toString_head n
    refine ⟨c, cs, htext, ?_⟩
    rcases hc with rfl | hc
    · decide
    · constructor
      · refine Bool.eq_false_iff.2 fun hspace => ?_
        simp only [isSpace, Bool.or_eq_true, beq_iff_eq] at hspace
        rcases hspace with ((rfl | rfl) | rfl) | rfl <;> simp [isDigit] at hc
      · rintro rfl
        simp [isDigit] at hc
  | string s => exact ⟨'\x22', _, rfl, rfl, by decide⟩
  | @list items _ => cases items <;> exact ⟨'[', _, rfl, rfl, by decide⟩
  | @table members _ => cases members <;> exact ⟨'\x7b', _, rfl, rfl, by decide⟩

theorem stops_cons {c : Char} {cs : List Char} (h : isDigit c = false ∧ c ≠ '.' ∧ c ≠ 'e' ∧ c ≠ 'E') :
    Stops (c :: cs) := by
  intro a ha
  obtain rfl : c = a := by simpa using ha
  exact h

namespace Layout

variable {y : Layout}

/-- The document is read from its text, where the steps suffice for the whole text. -/
def Reads (y : Layout) (d : Document) : Prop := ∀ (level depth : Nat) (rest : List Char), Stops rest →
  2 * (y.print level d ++ rest).length ≤ depth →
  value? (depth + 1) (y.print level d ++ rest) = some (d, rest)

theorem items?_print {items : List Document} (hitems : ∀ d ∈ items, y.Reads d) (hne : items ≠ [])
    {level close depth : Nat} {rest : List Char}
    (hdepth : 2 * (y.printItems level items ++ (y.newline close ++ ']' :: rest)).length ≤ depth) :
    items? (depth + 2) (y.printItems level items ++ (y.newline close ++ ']' :: rest)) =
      some (items, rest) := by
  induction items generalizing depth with
  | nil => exact absurd rfl hne
  | cons d items ih =>
    obtain ⟨hd, hitems⟩ := List.forall_mem_cons.1 hitems
    cases items with
    | nil =>
      rw [printItems] at hdepth ⊢
      have hvalue := hd level depth (y.newline close ++ ']' :: rest)
        (stops_append (y.newline_isSpace close) (stops_cons (by decide))) (by simp at hdepth ⊢; omega)
      rw [items?, List.append_assoc, value?_append (y.newline_isSpace level), hvalue]
      simp only [skipSpace_append (y.newline_isSpace close), skipSpace_cons (c := ']') rfl]
    | cons e more =>
      rw [y.printItems_cons level d (by simp)] at hdepth ⊢
      simp only [List.append_assoc, List.cons_append, List.length_append, List.length_cons] at hdepth ⊢
      have hvalue := hd level depth
        (',' :: (y.printItems level (e :: more) ++ (y.newline close ++ ']' :: rest)))
        (stops_cons (by decide)) (by simp; omega)
      -- The rest of the list is one step less deep, and its text shorter by the comma at least.
      have hmore := @ih hitems (by simp) (depth - 1) (by simp; omega)
      have hsteps : depth - 1 + 2 = depth + 1 := by omega
      rw [hsteps] at hmore
      rw [items?, value?_append (y.newline_isSpace level), hvalue]
      simp only [skipSpace_cons (c := ',') rfl, hmore, Option.map_some]

theorem members?_print {members : List (String × Document)} (hmembers : ∀ m ∈ members, y.Reads m.2)
    (hne : members ≠ []) {level close depth : Nat} {rest : List Char}
    (hdepth : 2 * (y.printMembers level members ++ (y.newline close ++ '\x7d' :: rest)).length ≤ depth) :
    members? (depth + 2) (y.printMembers level members ++ (y.newline close ++ '\x7d' :: rest)) =
      some (members.map fun m => (some m.1, m.2), rest) := by
  induction members generalizing depth with
  | nil => exact absurd rfl hne
  | cons m members ih =>
    obtain ⟨key, d⟩ := m
    obtain ⟨hd, hmembers⟩ := List.forall_mem_cons.1 hmembers
    cases members with
    | nil =>
      rw [printMembers] at hdepth ⊢
      have hvalue := hd level depth (y.newline close ++ '\x7d' :: rest)
        (stops_append (y.newline_isSpace close) (stops_cons (by decide))) (by simp at hdepth ⊢; omega)
      simp only [quoted, List.append_assoc, List.cons_append, List.nil_append]
      rw [members?, skipSpace_append (y.newline_isSpace level), skipSpace_cons rfl]
      simp only [string?_escaped, skipSpace_cons (c := ':') rfl, value?_append y.gap_isSpace, hvalue,
        skipSpace_append (y.newline_isSpace close), skipSpace_cons (c := '\x7d') rfl]
      simp
    | cons e more =>
      rw [y.printMembers_cons level key d (by simp)] at hdepth ⊢
      simp only [quoted, List.append_assoc, List.cons_append, List.nil_append, List.length_append,
        List.length_cons] at hdepth ⊢
      have hvalue := hd level depth
        (',' :: (y.printMembers level (e :: more) ++ (y.newline close ++ '\x7d' :: rest)))
        (stops_cons (by decide)) (by simp; omega)
      have hmore := @ih hmembers (by simp) (depth - 1) (by simp; omega)
      have hsteps : depth - 1 + 2 = depth + 1 := by omega
      rw [hsteps] at hmore
      rw [members?, skipSpace_append (y.newline_isSpace level), skipSpace_cons rfl]
      simp only [string?_escaped, skipSpace_cons (c := ':') rfl, value?_append y.gap_isSpace, hvalue,
        skipSpace_cons (c := ',') rfl, hmore, Option.map_some, List.map_cons, String.ofList_toList]

end Layout

theorem value?_number {depth : Nat} {c : Char} {cs : List Char} (hc : c = '-' ∨ isDigit c = true) :
    value? (depth + 1) (c :: cs) = number? (c :: cs) := by
  have hother : ∀ e ∈ ['n', 't', 'f', '\x22', '[', '\x7b', ' ', '\n', '\t', '\r'], c ≠ e := by
    have hnone : ∀ e ∈ ['n', 't', 'f', '\x22', '[', '\x7b', ' ', '\n', '\t', '\r'],
        ¬ (e = '-' ∨ isDigit e = true) := by simp [isDigit]
    rintro e he rfl
    exact hnone c he hc
  have hspace : isSpace c = false := by
    simp [isSpace, hother]
  rw [value?, skipSpace_cons hspace]
  split
  case h_7 => rfl
  all_goals
    rename_i heq
    exact absurd (List.cons.inj heq).1 (hother _ (by simp))

theorem ofMembers_some (members : List (String × Document)) :
    ofMembers (members.map fun m => (some m.1, m.2)) = .table members := by
  have hkeys : (members.map fun m => (some m.1, m.2)).mapM
      (fun m : Option String × Document => m.1.map fun key => (key, m.2)) = some members := by
    induction members with
    | nil => rfl
    | cons m members ih =>
      rw [List.map_cons, List.mapM_cons, ih]
      rfl
  rw [ofMembers, hkeys]

namespace Layout

variable {y : Layout}

theorem reads_list {items : List Document} (hplain : ∀ d ∈ items, Plain d) (hitems : ∀ d ∈ items, y.Reads d) :
    y.Reads (.list items) := by
  intro level depth rest hstops hdepth
  cases items with
  | nil =>
    rw [value?]
    rfl
  | cons d items =>
    have htext : y.print level (.list (d :: items)) ++ rest =
        '[' :: (y.printItems (level + 1) (d :: items) ++ (y.newline level ++ ']' :: rest)) := by
      rw [print] <;> simp
    have hopen : ∀ tail, skipSpace (y.printItems (level + 1) (d :: items) ++
        (y.newline level ++ ']' :: rest)) ≠ ']' :: tail := by
      intro tail heq
      obtain ⟨more, hmore⟩ := y.exists_printItems (level + 1) d items
      obtain ⟨c, cs, hhead, hspace, hclose⟩ := (hplain d List.mem_cons_self).exists_head y (level + 1)
      rw [hmore, List.append_assoc, skipSpace_append (y.newline_isSpace _), hhead, List.cons_append,
        List.cons_append, skipSpace_cons hspace] at heq
      exact hclose (List.cons.inj heq).1
    rw [htext] at hdepth ⊢
    obtain ⟨depth, rfl⟩ := Nat.exists_eq_add_of_le' (m := 2) (n := depth) (by simp at hdepth; omega)
    rw [value?_list hopen, items?_print hitems (by simp) (by simp at hdepth ⊢; omega)]
    rfl

theorem reads_table {members : List (String × Document)} (hmembers : ∀ m ∈ members, y.Reads m.2) :
    y.Reads (.table members) := by
  intro level depth rest hstops hdepth
  cases members with
  | nil =>
    rw [value?]
    rfl
  | cons m members =>
    have htext : y.print level (.table (m :: members)) ++ rest = '\x7b' ::
        (y.printMembers (level + 1) (m :: members) ++ (y.newline level ++ '\x7d' :: rest)) := by
      rw [print] <;> simp
    have hopen : ∀ tail, skipSpace (y.printMembers (level + 1) (m :: members) ++
        (y.newline level ++ '\x7d' :: rest)) ≠ '\x7d' :: tail := by
      intro tail heq
      obtain ⟨more, hmore⟩ := y.exists_printMembers (level + 1) m members
      rw [hmore, List.append_assoc, skipSpace_append (y.newline_isSpace _), List.cons_append,
        skipSpace_cons rfl] at heq
      simp at heq
    rw [htext] at hdepth ⊢
    obtain ⟨depth, rfl⟩ := Nat.exists_eq_add_of_le' (m := 2) (n := depth) (by simp at hdepth; omega)
    rw [value?_table hopen, members?_print hmembers (by simp) (by simp at hdepth ⊢; omega), Option.map_some,
      ofMembers_some]

end Layout

/-- A plain document is read back from its text in every layout. -/
theorem Plain.reads {d : Document} (h : Plain d) (y : Layout) : y.Reads d := by
  -- Only the case of a number asks where it ends; all others have an end of their own.
  induction h with
  | null =>
    intro level depth rest _ _
    rw [value?]
    rfl
  | bool b =>
    intro level depth rest _ _
    rw [value?]
    cases b <;> rfl
  | int n =>
    intro level depth rest hstops _
    have htext : y.print level (.int n) = (toString n).toList := rfl
    obtain ⟨c, cs, hn, hc⟩ := toString_head n
    rw [htext, ← number?_toString n hstops, hn]
    exact value?_number hc
  | string s =>
    intro level depth rest _ _
    have htext : y.print level (.string s) ++ rest =
        '\x22' :: (s.toList.flatMap escape ++ '\x22' :: rest) := by
      simp [Layout.print, leaf, quoted]
    rw [htext, value?, skipSpace_cons rfl]
    simp only [string?_escaped, Option.map_some, ofText, String.ofList_toList]
  | list hitems ih => exact Layout.reads_list hitems ih
  | table _ ih => exact Layout.reads_table ih

/-- A plain document is the only thing in its text. -/
theorem Plain.read?_print {d : Document} (h : Plain d) (y : Layout) :
    read? (String.ofList (y.print 0 d)) = some d := by
  have hvalue := h.reads y 0 (2 * (y.print 0 d).length + 1) [] (by simp [Stops]) (by simp)
  rw [List.append_nil] at hvalue
  simp only [read?, String.toList_ofList, hvalue]
  rfl

theorem Plain.read?_write {d : Document} (h : Plain d) : read? (write d) = some d := by
  rw [write, ← Layout.print_oneLine 0]
  exact h.read?_print _

theorem Plain.read?_writePretty {d : Document} (h : Plain d) : read? (writePretty d) = some d := by
  rw [writePretty, ← Layout.print_indented 0]
  exact h.read?_print _

end StakeChain.Json
