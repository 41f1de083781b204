import Mathlib.Data.List.TakeWhile
import SchemaLift.Token.Scan

/-!
# The token at the head of a text

White space belongs to no token (`pieces_blank_append`). A word in lower case is one token wherever
no character follows that could continue it (`pieces_word_append`); `Identifier` says which words are
identifiers in all these places, and every identifier that the scanner finds is one of them
(`identifier_of_head`).
-/

namespace SchemaLift

/-! ## Code points -/

theorem isUpper_iff_toNat {c : Char} : c.isUpper = true ↔ 65 ≤ c.toNat ∧ c.toNat ≤ 90 := by
  show decide (c.val ≥ 'A'.val ∧ c.val ≤ 'Z'.val) = true ↔ _
  simp only [decide_eq_true_eq, ge_iff_le, UInt32.le_iff_toNat_le]
  exact Iff.rfl

theorem isLower_iff_toNat {c : Char} : c.isLower = true ↔ 97 ≤ c.toNat ∧ c.toNat ≤ 122 := by
  show (decide (c.val ≥ 'a'.val) && decide (c.val ≤ 'z'.val)) = true ↔ _
  simp only [Bool.and_eq_true, decide_eq_true_eq, ge_iff_le, UInt32.le_iff_toNat_le]
  exact Iff.rfl

theorem isDigit_iff_toNat {c : Char} : c.isDigit = true ↔ 48 ≤ c.toNat ∧ c.toNat ≤ 57 :=
  Char.isDigit_iff_toNat

theorem Text.isBlankChar_bounds {c : Char} (h : Text.isBlankChar c = true) :
    c.toNat ≤ 32 ∨ 133 ≤ c.toNat := by
  obtain ⟨r, hr, hc⟩ := List.any_eq_true.1 h
  simp only [Bool.and_eq_true, decide_eq_true_eq] at hc
  simp only [Text.blankRanges, List.mem_cons, List.not_mem_nil, or_false] at hr
  rcases hr with rfl | rfl | rfl | rfl | rfl | rfl | rfl | rfl | rfl | rfl <;>
    simp only at hc <;> omega

/-- Characters that a test tells apart are different. -/
theorem ne_of_holds {p : Char → Bool} {c d : Char} (hc : p c = true) (hd : p d = false) : c ≠ d := by
  rintro rfl
  rw [hc] at hd
  cases hd

/-- The tokens that start with a letter or an underscore. -/
def TokenKind.isWord : TokenKind → Bool
  | .identifier | .constant | .label | .doWord | .endWord => true
  | _ => false

namespace Scan

theorem isWordStart_iff_toNat {c : Char} : isWordStart c = true ↔
    (65 ≤ c.toNat ∧ c.toNat ≤ 90) ∨ (97 ≤ c.toNat ∧ c.toNat ≤ 122) ∨ c.toNat = 95 := by
  have hu : c = '_' ↔ c.toNat = 95 := ⟨fun h => h ▸ rfl, fun h => Char.toNat_inj.1 h⟩
  show ((c.isUpper || c.isLower) || c == '_') = true ↔ _
  rw [Bool.or_eq_true, Bool.or_eq_true, isUpper_iff_toNat, isLower_iff_toNat, beq_iff_eq, hu,
    or_assoc]

theorem isWordChar_iff_toNat {c : Char} : isWordChar c = true ↔
    (48 ≤ c.toNat ∧ c.toNat ≤ 57) ∨ (65 ≤ c.toNat ∧ c.toNat ≤ 90) ∨
      (97 ≤ c.toNat ∧ c.toNat ≤ 122) ∨ c.toNat = 95 := by
  have hu : c = '_' ↔ c.toNat = 95 := ⟨fun h => h ▸ rfl, fun h => Char.toNat_inj.1 h⟩
  show (((c.isUpper || c.isLower) || c.isDigit) || c == '_') = true ↔ _
  rw [Bool.or_eq_true, Bool.or_eq_true, Bool.or_eq_true, isUpper_iff_toNat, isLower_iff_toNat,
    isDigit_iff_toNat, beq_iff_eq, hu]
  omega

theorem isWordChar_of_isWordStart {c : Char} (h : isWordStart c = true) : isWordChar c = true := by
  rw [isWordStart_iff_toNat] at h
  rw [isWordChar_iff_toNat]
  omega

theorem isWordChar_of_isDigit {c : Char} (h : c.isDigit = true) : isWordChar c = true := by
  rw [isDigit_iff_toNat] at h
  rw [isWordChar_iff_toNat]
  omega

theorem isDigit_of_isWordStart {c : Char} (h : isWordStart c = true) : c.isDigit = false := by
  rw [Bool.eq_false_iff, Ne, isDigit_iff_toNat]
  have := isWordStart_iff_toNat.1 h
  omega

theorem isBlankChar_of_isWordChar {c : Char} (h : isWordChar c = true) : Text.isBlankChar c = false := by
  rw [Bool.eq_false_iff]
  intro hb
  have hbounds := Text.isBlankChar_bounds hb
  rw [isWordChar_iff_toNat] at h
  omega

/-! ## What stands at the head -/

/-- A letter or an underscore starts a word. -/
theorem head_of_isWordStart {c : Char} (h : isWordStart c = true) (cs : Text) :
    head c cs = (some (word c cs).1, (word c cs).2) := by
  have hne : ∀ d : Char, isWordStart d = false → c ≠ d := fun _ => ne_of_holds h
  unfold head
  rw [if_neg (hne _ (by decide)), if_neg (hne _ (by decide)), if_neg (hne _ (by decide)),
    if_neg (hne _ (by decide)), if_neg (hne _ (by decide)), if_neg (hne _ (by decide)),
    isDigit_of_isWordStart h, if_neg Bool.false_ne_true, if_pos h]

/-- White space belongs to no token. -/
theorem head_of_isBlankChar {c : Char} (h : Text.isBlankChar c = true) (cs : Text) :
    head c cs = (none, 0) := by
  have hne : ∀ d : Char, Text.isBlankChar d = false → c ≠ d := fun _ =>
    ne_of_holds h
  have hb := Text.isBlankChar_bounds h
  have hdigit : c.isDigit = false := by
    rw [Bool.eq_false_iff, Ne, isDigit_iff_toNat]
    omega
  have hword : isWordStart c = false := by
    rw [Bool.eq_false_iff, Ne, isWordStart_iff_toNat]
    omega
  have hop : isOperator c = false := by
    rw [Bool.eq_false_iff]
    intro ho
    have hall : (['+', '-', '*', '/', '%', '<', '>', '=', '&', '^', '~', '?'].all
        fun d => !Text.isBlankChar d) = true := by decide
    have hnot := List.all_eq_true.1 hall c (List.contains_iff_mem.1 ho)
    rw [h] at hnot
    cases hnot
  have hpunct : punctuation c = none := by
    unfold punctuation
    split <;> first | exact absurd rfl (hne _ (by decide)) | rfl
  unfold head
  rw [if_neg (hne _ (by decide)), if_neg (hne _ (by decide)), if_neg (hne _ (by decide)),
    if_neg (hne _ (by decide)), if_neg (hne _ (by decide)), if_neg (hne _ (by decide)), hdigit,
    if_neg Bool.false_ne_true, hword, if_neg Bool.false_ne_true,
    if_neg (fun e => hne _ (by decide) e.1), if_neg (fun e => hne _ (by decide) e.1), hop,
    if_neg Bool.false_ne_true, hpunct]

/-- An equals sign is an operator of its own, unless it is half of an arrow. -/
theorem head_equals {rest : Text} (h : rest.head? ≠ some '>') :
    head '=' rest = (some .operator, 0) := by
  unfold head
  simp only [h, and_false, ↓reduceIte]
  rfl

/-! ## Words -/

/-- Nothing follows that could continue a word: no word character, and none of `:`, `?`, `!`. -/
def Delimits (rest : Text) : Prop :=
  ∀ d ∈ rest.head?, isWordChar d = false ∧ d ≠ ':' ∧ d ≠ '?' ∧ d ≠ '!'

theorem delimits_nil : Delimits [] := by
  intro d hd
  cases hd

theorem delimits_cons {d : Char} (h : isWordChar d = false ∧ d ≠ ':' ∧ d ≠ '?' ∧ d ≠ '!')
    (rest : Text) : Delimits (d :: rest) := by
  intro e he
  cases he
  exact h

/-- White space ends a word. -/
theorem delimits_of_isBlankChar {c : Char} (h : Text.isBlankChar c = true) (rest : Text) :
    Delimits (c :: rest) := by
  have hb := Text.isBlankChar_bounds h
  have hne : ∀ d : Char, Text.isBlankChar d = false → c ≠ d := fun _ =>
    ne_of_holds h
  refine delimits_cons ⟨?_, hne _ (by decide), hne _ (by decide), hne _ (by decide)⟩ rest
  rw [Bool.eq_false_iff, Ne, isWordChar_iff_toNat]
  omega

theorem delimits_blank_append {ws rest : Text} (hws : ∀ c ∈ ws, Text.isBlankChar c = true)
    (hr : Delimits rest) : Delimits (ws ++ rest) := by
  cases ws with
  | nil => exact hr
  | cons c cs => exact delimits_of_isBlankChar (hws c List.mem_cons_self) _

/-- The kind of a word that holds no mark, in lower case. -/
def plainKind (w : Text) : TokenKind :=
  if w = ['d', 'o'] then .doWord else if w = ['e', 'n', 'd'] then .endWord else .identifier

theorem run_append {p : Char → Bool} {stem : Text} (hs : ∀ d ∈ stem, p d = true) (rest : Text) :
    run p (stem ++ rest) = stem.length + run p rest := by
  rw [run, List.takeWhile_append_of_pos hs, List.length_append, run]

theorem run_eq_length {p : Char → Bool} {s : Text} (hs : ∀ d ∈ s, p d = true) :
    run p s = s.length := by
  rw [run, List.takeWhile_eq_self_iff.2 hs]

theorem run_of_head {p : Char → Bool} {rest : Text} (h : ∀ d ∈ rest.head?, p d = false) :
    run p rest = 0 := by
  cases rest with
  | nil => rfl
  | cons d ds =>
    have hd := h d rfl
    simp [run, hd]

/-- A word in lower case ends where its word characters end. -/
theorem word_append {c : Char} (hu : c.isUpper = false) {stem : Text}
    (hs : ∀ d ∈ stem, isWordChar d = true) {rest : Text} (hr : Delimits rest) :
    word c (stem ++ rest) = (plainKind (c :: stem), stem.length) := by
  have hn : run isWordChar (stem ++ rest) = stem.length := by
    rw [run_append hs, run_of_head fun d hd => (hr d hd).1, Nat.add_zero]
  unfold word
  simp only [hu, Bool.false_and, Bool.false_eq_true, ↓reduceIte, hn, List.drop_left,
    List.take_left, plainKind]
  cases rest with
  | nil => simp only; split <;> [rfl; split <;> rfl]
  | cons d ds =>
    obtain ⟨-, h1, h2, h3⟩ := hr d rfl
    split
    · rename_i heq; cases heq; exact absurd rfl h1
    · rename_i heq; cases heq; exact absurd rfl h2
    · rename_i heq; cases heq; exact absurd rfl h3
    · split
      · rename_i heq; cases heq; exact absurd rfl h2
      · rename_i heq; cases heq; exact absurd rfl h3
      · split <;> [rfl; split <;> rfl]

/-- A word in lower case with a question or exclamation mark at its end. -/
theorem word_append_mark {c : Char} (hu : c.isUpper = false) {stem : Text}
    (hs : ∀ d ∈ stem, isWordChar d = true) {mark : Char} (hm : mark = '?' ∨ mark = '!') {rest : Text}
    (hr : Delimits rest) :
    word c (stem ++ mark :: rest) = (.identifier, stem.length + 1) := by
  have hmark : isWordChar mark = false := by rcases hm with rfl | rfl <;> decide
  have hn : run isWordChar (stem ++ mark :: rest) = stem.length := by
    rw [run_append hs, run_of_head (fun d hd => by cases hd; exact hmark), Nat.add_zero]
  unfold word
  simp only [hu, Bool.false_and, Bool.false_eq_true, ↓reduceIte, hn, List.drop_left]
  have hcolon : ∀ ds, rest ≠ ':' :: ds := by
    rintro ds rfl
    exact (hr ':' rfl).2.1 rfl
  rcases hm with rfl | rfl
  · split
    · rename_i heq; cases heq
    · rename_i heq; cases heq; exact absurd rfl (hcolon _)
    · rename_i heq; cases heq
    · split
      · rfl
      · rename_i heq; cases heq
      · rename_i heq _; exact absurd rfl (heq _)
  · split
    · rename_i heq; cases heq
    · rename_i heq; cases heq
    · rename_i heq; cases heq; exact absurd rfl (hcolon _)
    · split
      · rename_i heq; cases heq
      · rfl
      · rename_i _ heq; exact absurd rfl (heq _)

/-- A symbol that is a word takes a mark or an equals sign along. -/
theorem afterColon_word {c : Char} (hc : isWordStart c = true) {stem : Text}
    (hs : ∀ d ∈ stem, isWordChar d = true) {rest : Text}
    (hr : ∀ d ∈ rest.head?, isWordChar d = false) :
    afterColon (c :: (stem ++ rest)) = (some .symbol,
      stem.length + if rest.head?.any fun d => d == '?' || d == '!' || d == '=' then 2 else 1) := by
  have hn : run isWordChar (stem ++ rest) = stem.length := by
    rw [run_append hs, run_of_head hr, Nat.add_zero]
  rw [afterColon, if_pos hc]
  · simp only [hn, List.drop_left]
    cases rest with
    | nil => rfl
    | cons d ds => split <;> simp_all
  · exact ne_of_holds hc (by decide)
  · exact ne_of_holds hc (by decide)

/-- The words that are identifiers wherever nothing follows that could continue them. -/
inductive Identifier : Text → Prop
  | plain {c : Char} {stem : Text} (hc : isWordStart c = true) (hu : c.isUpper = false)
      (hs : ∀ d ∈ stem, isWordChar d = true) (hk : plainKind (c :: stem) = .identifier) :
      Identifier (c :: stem)
  | marked {c : Char} {stem : Text} {mark : Char} (hc : isWordStart c = true)
      (hu : c.isUpper = false) (hs : ∀ d ∈ stem, isWordChar d = true)
      (hm : mark = '?' ∨ mark = '!') : Identifier (c :: (stem ++ [mark]))

theorem Identifier.exists_cons {w : Text} (h : Identifier w) :
    ∃ c cs, w = c :: cs ∧ isWordStart c = true := by
  cases h with
  | plain hc _ _ _ => exact ⟨_, _, rfl, hc⟩
  | marked hc _ _ _ => exact ⟨_, _, rfl, hc⟩

theorem Identifier.isUpper_eq {c : Char} {cs : Text} (h : Identifier (c :: cs)) :
    c.isUpper = false := by
  cases h with
  | plain _ hu _ _ => exact hu
  | marked _ hu _ _ => exact hu

/-- The characters of a word with a mark at its end. -/
theorem mem_marked {c : Char} (hc : isWordStart c = true) {stem : Text}
    (hs : ∀ d ∈ stem, isWordChar d = true) {mark : Char} (hm : mark = '?' ∨ mark = '!') {d : Char}
    (hd : d ∈ c :: (stem ++ [mark])) : isWordChar d = true ∨ d = '?' ∨ d = '!' := by
  rcases List.mem_cons.1 hd with rfl | hd
  · exact .inl (isWordChar_of_isWordStart hc)
  rcases List.mem_append.1 hd with hd | hd
  · exact .inl (hs d hd)
  · rw [List.mem_singleton.1 hd]
    exact .inr hm

theorem Identifier.mem {w : Text} (h : Identifier w) {d : Char} (hd : d ∈ w) :
    isWordChar d = true ∨ d = '?' ∨ d = '!' := by
  cases h with
  | @plain c stem hc _ hs _ =>
    have hword : ∀ d ∈ c :: stem, isWordChar d = true :=
      List.forall_mem_cons.2 ⟨isWordChar_of_isWordStart hc, hs⟩
    exact .inl (hword d hd)
  | marked hc _ hs hm => exact mem_marked hc hs hm hd

/-! ## Which words are identifiers -/

/-- A colon starts a token, unless the quote behind it is left open. -/
theorem afterColon_cases (cs : Text) :
    (∃ kind ∈ [TokenKind.scope, .symbol, .colon], ∃ n, afterColon cs = (some kind, n)) ∨
      ∃ n rest, cs = '"' :: rest ∧ Quoted.plainExtent '"' rest = .unclosed n ∧
        afterColon cs = (none, n + 1) := by
  unfold afterColon
  split
  · exact .inl ⟨.scope, by decide, 1, rfl⟩
  · rename_i rest
    split
    · exact .inl ⟨.symbol, by decide, _, rfl⟩
    · rename_i n hn
      exact .inr ⟨n, rest, rfl, hn, rfl⟩
  · split
    · simp only
      split <;> exact .inl ⟨.symbol, by decide, _, rfl⟩
    · exact .inl ⟨.colon, by decide, 0, rfl⟩
  · exact .inl ⟨.colon, by decide, 0, rfl⟩

theorem afterAt_cases (cs : Text) :
    (∃ n, afterAt cs = (some .instanceVariable, n)) ∨ afterAt cs = (none, 0) := by
  unfold afterAt
  split
  · split
    · exact .inl ⟨_, rfl⟩
    · exact .inr rfl
  · split
    · exact .inl ⟨_, rfl⟩
    · exact .inr rfl
  · exact .inr rfl

theorem afterColon_isWord (cs : Text) : (afterColon cs).1.any TokenKind.isWord = false := by
  have hkinds : ∀ kind ∈ [TokenKind.scope, .symbol, .colon], kind.isWord = false := by decide
  rcases afterColon_cases cs with ⟨kind, hk, n, h⟩ | ⟨n, rest, -, -, h⟩
  · rw [h]
    exact hkinds kind hk
  · rw [h]
    rfl

theorem afterAt_isWord (cs : Text) : (afterAt cs).1.any TokenKind.isWord = false := by
  rcases afterAt_cases cs with ⟨n, h⟩ | h <;>
  · rw [h]
    rfl

theorem punctuation_isWord (c : Char) : (punctuation c).any TokenKind.isWord = false := by
  unfold punctuation
  split <;> rfl

/-- What stands at the head, by the character there. -/
theorem head_cases {P : Option TokenKind × Nat → Prop} (c : Char) (cs : Text)
    (string : c = '"' → P (match Quoted.stringClose cs with
      | some n => (some .doubleQuoted, n + 1)
      | none => (none, 0)))
    (quote : c = '\'' → P (match Quoted.plainExtent '\'' cs with
      | .closed n => (some .singleQuoted, n)
      | .unclosed n => (none, n)))
    (colon : c = ':' → P (afterColon cs))
    (comment : c = '#' → P (some .comment, run (· != '\n') cs))
    (atSign : c = '@' → P (afterAt cs))
    (dollar : c = '$' → P (if run isWordChar cs = 0 then (none, 0)
      else (some .globalVariable, run isWordChar cs)))
    (digit : c.isDigit = true → P (some .number, number cs))
    (letter : isWordStart c = true → P (some (word c cs).1, (word c cs).2))
    (arrow : c = '-' → cs.head? = some '>' → P (some .arrow, 1))
    (rocket : c = '=' → cs.head? = some '>' → P (some .hashRocket, 1))
    (operator : isOperator c = true → P (some .operator, 0))
    (mark : P (punctuation c, 0)) : P (head c cs) := by
  unfold head
  by_cases h₁ : c = '"'
  · rw [if_pos h₁]; exact string h₁
  rw [if_neg h₁]
  by_cases h₂ : c = '\''
  · rw [if_pos h₂]; exact quote h₂
  rw [if_neg h₂]
  by_cases h₃ : c = ':'
  · rw [if_pos h₃]; exact colon h₃
  rw [if_neg h₃]
  by_cases h₄ : c = '#'
  · rw [if_pos h₄]; exact comment h₄
  rw [if_neg h₄]
  by_cases h₅ : c = '@'
  · rw [if_pos h₅]; exact atSign h₅
  rw [if_neg h₅]
  by_cases h₆ : c = '$'
  · rw [if_pos h₆]; exact dollar h₆
  rw [if_neg h₆]
  by_cases h₇ : c.isDigit = true
  · rw [if_pos h₇]; exact digit h₇
  rw [if_neg h₇]
  by_cases h₈ : isWordStart c = true
  · rw [if_pos h₈]; exact letter h₈
  rw [if_neg h₈]
  split_ifs with h₉ h₁₀ h₁₁
  · exact arrow h₉.1 h₉.2
  · exact rocket h₁₀.1 h₁₀.2
  · exact operator h₁₁
  · exact mark

/-- What stands at the head of two texts is the same if the reader for the character there finds the
same. -/
theorem head_congr {c : Char} {cs cs' : Text}
    (string : c = '"' → Quoted.stringClose cs' = Quoted.stringClose cs)
    (quote : c = '\'' → Quoted.plainExtent '\'' cs' = Quoted.plainExtent '\'' cs)
    (colon : c = ':' → afterColon cs' = afterColon cs)
    (comment : c = '#' → run (· != '\n') cs' = run (· != '\n') cs)
    (atSign : c = '@' → afterAt cs' = afterAt cs)
    (dollar : c = '$' → run isWordChar cs' = run isWordChar cs)
    (digit : c.isDigit = true → number cs' = number cs)
    (letter : isWordStart c = true → word c cs' = word c cs)
    (arrow : c = '-' ∨ c = '=' → (cs'.head? = some '>' ↔ cs.head? = some '>')) :
    head c cs' = head c cs := by
  unfold head
  by_cases h₁ : c = '"'
  · rw [if_pos h₁, if_pos h₁, string h₁]
  rw [if_neg h₁, if_neg h₁]
  by_cases h₂ : c = '\''
  · rw [if_pos h₂, if_pos h₂, quote h₂]
  rw [if_neg h₂, if_neg h₂]
  by_cases h₃ : c = ':'
  · rw [if_pos h₃, if_pos h₃, colon h₃]
  rw [if_neg h₃, if_neg h₃]
  by_cases h₄ : c = '#'
  · rw [if_pos h₄, if_pos h₄, comment h₄]
  rw [if_neg h₄, if_neg h₄]
  by_cases h₅ : c = '@'
  · rw [if_pos h₅, if_pos h₅, atSign h₅]
  rw [if_neg h₅, if_neg h₅]
  by_cases h₆ : c = '$'
  · rw [if_pos h₆, if_pos h₆, dollar h₆]
  rw [if_neg h₆, if_neg h₆]
  by_cases h₇ : c.isDigit = true
  · rw [if_pos h₇, if_pos h₇, digit h₇]
  rw [if_neg h₇, if_neg h₇]
  by_cases h₈ : isWordStart c = true
  · rw [if_pos h₈, if_pos h₈, letter h₈]
  rw [if_neg h₈, if_neg h₈]
  exact if_congr (and_congr_right fun hc => arrow (.inl hc)) rfl
    (if_congr (and_congr_right fun hc => arrow (.inr hc)) rfl rfl)

theorem head_of_isDigit {c : Char} (h : c.isDigit = true) (cs : Text) :
    head c cs = (some .number, number cs) := by
  have hne : ∀ d : Char, d.isDigit = false → c ≠ d := fun _ => ne_of_holds h
  unfold head
  rw [if_neg (hne _ (by decide)), if_neg (hne _ (by decide)), if_neg (hne _ (by decide)),
    if_neg (hne _ (by decide)), if_neg (hne _ (by decide)), if_neg (hne _ (by decide)), if_pos h]

theorem head_isWord {c : Char} (hc : isWordStart c = false) (cs : Text) :
    (head c cs).1.any TokenKind.isWord = false := by
  refine head_cases (P := fun found => found.1.any TokenKind.isWord = false) c cs ?_ ?_
    (fun _ => afterColon_isWord cs) (fun _ => rfl) (fun _ => afterAt_isWord cs) ?_ (fun _ => rfl)
    (fun h => absurd h (Bool.eq_false_iff.1 hc)) (fun _ _ => rfl) (fun _ _ => rfl) (fun _ => rfl)
    (punctuation_isWord c)
  · intro _
    cases Quoted.stringClose cs <;> rfl
  · intro _
    cases Quoted.plainExtent '\'' cs <;> rfl
  · intro _
    split <;> rfl

/-- Only a letter or an underscore starts a word. -/
theorem isWordStart_of_head {c : Char} {cs : Text} {kind : TokenKind}
    (h : (head c cs).1 = some kind) (hk : kind.isWord = true) : isWordStart c = true := by
  by_contra hc
  have hnot := head_isWord (Bool.eq_false_iff.2 hc) cs
  rw [h, Option.any_some, hk] at hnot
  cases hnot

theorem word_isWord (c : Char) (cs : Text) : (word c cs).1.isWord = true := by
  unfold word
  extract_lets n path
  split
  · rfl
  split
  · rfl
  · rfl
  · rfl
  split
  · rfl
  split
  · rfl
  · rfl
  split
  · rfl
  · split <;> rfl

theorem take_run (p : Char → Bool) (cs : Text) : cs.take (run p cs) = cs.takeWhile p :=
  (List.prefix_iff_eq_take.1 (List.takeWhile_prefix p)).symm

theorem take_succ_of_drop_eq_cons {cs rest : Text} {n : Nat} {d : Char}
    (h : cs.drop n = d :: rest) : cs.take (n + 1) = cs.take n ++ [d] := by
  rw [List.take_add_one, ← List.head?_drop, h]
  rfl

/-- Every identifier of the scanner is one wherever it stands. -/
theorem identifier_of_head {c : Char} {cs : Text} (h : (head c cs).1 = some .identifier) :
    Identifier (c :: cs.take (head c cs).2) := by
  have hc := isWordStart_of_head h rfl
  have hs : ∀ d ∈ cs.take (run isWordChar cs), isWordChar d = true := by
    intro d hd
    rw [take_run] at hd
    exact List.mem_takeWhile_imp hd
  rw [head_of_isWordStart hc] at h ⊢
  have hk : (word c cs).1 = .identifier := Option.some.inj h
  revert hk
  unfold word
  extract_lets n path
  split
  · rintro ⟨⟩
  split
  · rintro ⟨⟩
  · rintro ⟨⟩
  · rintro ⟨⟩
  split
  · rintro ⟨⟩
  rename_i hu
  have hu : c.isUpper = false := by simpa using hu
  split
  · rename_i hd
    intro _
    rw [take_succ_of_drop_eq_cons hd]
    exact .marked hc hu hs (.inl rfl)
  · rename_i hd
    intro _
    rw [take_succ_of_drop_eq_cons hd]
    exact .marked hc hu hs (.inr rfl)
  split
  · rintro ⟨⟩
  split
  · rintro ⟨⟩
  · rename_i hdo hend
    intro _
    refine .plain hc hu hs ?_
    rw [plainKind, if_neg hdo, if_neg hend]

/-! ## Pieces -/

/-- Every piece was once at the head of a text. -/
theorem head_of_mem_pieces {s w : Text} {kind : Option TokenKind} (h : ⟨kind, w⟩ ∈ pieces s) :
    ∃ c cs, (head c cs).1 = kind ∧ w = c :: cs.take (head c cs).2 := by
  induction hn : s.length using Nat.strongRecOn generalizing s with
  | _ n ih =>
    cases s with
    | nil => cases h
    | cons c cs =>
      rw [pieces_cons] at h
      rcases List.mem_cons.1 h with heq | h
      · obtain ⟨rfl, rfl⟩ := Piece.mk.inj heq
        exact ⟨c, cs, rfl, rfl⟩
      · refine ih _ ?_ h rfl
        rw [List.length_drop, ← hn, List.length_cons]
        omega

theorem text_ne_nil_of_mem_pieces {s : Text} {p : Piece} (h : p ∈ pieces s) : p.text ≠ [] := by
  obtain ⟨c, cs, -, hp⟩ := head_of_mem_pieces h
  rw [hp]
  exact List.cons_ne_nil _ _

theorem pieces_blank_append {ws : Text} (h : ∀ c ∈ ws, Text.isBlankChar c = true) (s : Text) :
    pieces (ws ++ s) = ws.map (fun c => ⟨none, [c]⟩) ++ pieces s := by
  induction ws with
  | nil => rfl
  | cons c cs ih =>
    rw [List.cons_append, pieces_cons, head_of_isBlankChar (h c List.mem_cons_self),
      List.take_zero, List.drop_zero, ih fun d hd => h d (List.mem_cons_of_mem c hd)]
    rfl

/-- A token that takes `w` after its first character is followed by the tokens of the rest. -/
theorem pieces_of_head {c : Char} {w rest : Text} {kind : Option TokenKind}
    (h : head c (w ++ rest) = (kind, w.length)) :
    pieces (c :: (w ++ rest)) = ⟨kind, c :: w⟩ :: pieces rest := by
  rw [pieces_cons, h, List.take_left, List.drop_left]

theorem pieces_symbol_append {c : Char} (hc : isWordStart c = true) {stem : Text}
    (hs : ∀ d ∈ stem, isWordChar d = true) {rest : Text}
    (hr : ∀ d ∈ rest.head?, isWordChar d = false ∧ d ≠ '?' ∧ d ≠ '!' ∧ d ≠ '=') :
    pieces (':' :: c :: (stem ++ rest)) = ⟨some .symbol, ':' :: c :: stem⟩ :: pieces rest := by
  have hmark : ¬(rest.head?.any fun d => d == '?' || d == '!' || d == '=') = true := by
    rw [Option.any_eq_true]
    rintro ⟨d, hd, hmark⟩
    obtain ⟨-, h1, h2, h3⟩ := hr d hd
    simp [h1, h2, h3] at hmark
  have hhead : head ':' ((c :: stem) ++ rest) = (some .symbol, (c :: stem).length) := by
    show afterColon (c :: (stem ++ rest)) = _
    rw [afterColon_word hc hs fun d hd => (hr d hd).1, if_neg hmark, List.length_cons]
  exact pieces_of_head hhead

theorem pieces_symbol_mark {c : Char} (hc : isWordStart c = true) {stem : Text}
    (hs : ∀ d ∈ stem, isWordChar d = true) {mark : Char} (hm : mark = '?' ∨ mark = '!') :
    pieces (':' :: c :: (stem ++ [mark])) = [⟨some .symbol, ':' :: c :: (stem ++ [mark])⟩] := by
  have hend : ∀ d ∈ [mark].head?, isWordChar d = false := by
    intro d hd
    obtain rfl := Option.some.inj hd
    rcases hm with rfl | rfl <;> decide
  have hmark : ([mark].head?.any fun d => d == '?' || d == '!' || d == '=') = true := by
    rcases hm with rfl | rfl <;> rfl
  have hhead : head ':' ((c :: (stem ++ [mark])) ++ []) =
      (some .symbol, (c :: (stem ++ [mark])).length) := by
    rw [List.append_nil]
    show afterColon (c :: (stem ++ [mark])) = _
    rw [afterColon_word hc hs hend, if_pos hmark, List.length_cons, List.length_append]
    rfl
  have hpieces := pieces_of_head hhead
  rwa [List.append_nil] at hpieces

theorem pieces_word_append {c : Char} (hc : isWordStart c = true) (hu : c.isUpper = false)
    {stem : Text} (hs : ∀ d ∈ stem, isWordChar d = true) {rest : Text} (hr : Delimits rest) :
    pieces (c :: (stem ++ rest)) = ⟨some (plainKind (c :: stem)), c :: stem⟩ :: pieces rest := by
  apply pieces_of_head
  rw [head_of_isWordStart hc, word_append hu hs hr]

theorem Identifier.pieces_append {w : Text} (hw : Identifier w) {rest : Text} (hr : Delimits rest) :
    pieces (w ++ rest) = ⟨some .identifier, w⟩ :: pieces rest := by
  cases hw with
  | @plain c stem hc hu hs hk => rw [List.cons_append, pieces_word_append hc hu hs hr, hk]
  | @marked c stem mark hc hu hs hm =>
    apply pieces_of_head
    rw [head_of_isWordStart hc, List.append_assoc, List.singleton_append,
      word_append_mark hu hs hm hr, List.length_append]
    rfl

end Scan

end SchemaLift
