import Mathlib
import SchemaLift.Proofs.Name
import SchemaLift.Proofs.Text.Lines

/-!
# Names in underscore form

The underscore form of a text has no upper-case letter, and such a text is its own underscore form
(`underscore_underscore`). Apart from underscores nothing but the case of letters changes
(`filter_underscoreFrom`). A method name is a name as it may be declared itself, so a declared name is
brought to one form for good (`declared?_canonical`). The words of a name in upper camel case are found
again where each has two characters or more (`underscore_camelize`).
-/

namespace SchemaLift

namespace Name

/-! ## Underscore form -/

theorem isUpper_of_mem_underscoreFrom {previous : Option Char} {s : Text} :
    ∀ c ∈ underscoreFrom previous s, c.isUpper = false := by
  induction s generalizing previous with
  | nil =>
    intro c hc
    cases hc
  | cons d ds ih =>
    rw [underscoreFrom]
    split
    · rename_i hupper
      have hlow := isUpper_toLower hupper
      refine List.forall_mem_append.2 ⟨?_, ih⟩
      split
      · simp [hlow]
      · simp [hlow]
    · rename_i hupper
      exact List.forall_mem_cons.2 ⟨by simpa using hupper, ih⟩

theorem underscoreFrom_of_isUpper {previous : Option Char} {s : Text}
    (h : ∀ c ∈ s, c.isUpper = false) : underscoreFrom previous s = s := by
  induction s generalizing previous with
  | nil => rfl
  | cons c cs ih =>
    obtain ⟨hc, hcs⟩ := List.forall_mem_cons.1 h
    rw [underscoreFrom, hc, if_neg Bool.false_ne_true, ih hcs]

theorem underscore_underscore (s : Text) : underscore (underscore s) = underscore s :=
  underscoreFrom_of_isUpper isUpper_of_mem_underscoreFrom

/-- Besides underscores, a name keeps its characters, with its letters in lower case. -/
theorem filter_underscoreFrom (previous : Option Char) (s : Text) :
    (underscoreFrom previous s).filter (· != '_') = (s.filter (· != '_')).map Char.toLower := by
  induction s generalizing previous with
  | nil => rfl
  | cons c cs ih =>
    rw [underscoreFrom]
    by_cases hupper : c.isUpper = true
    · have hc : (c != '_') = true := by
        rw [bne_iff_ne]
        rintro rfl
        cases hupper
      have hlow : (c.toLower != '_') = true := by
        rw [bne_iff_ne]
        intro hlow
        have hcode := toNat_toLower hupper
        rw [hlow] at hcode
        have hbounds := isUpper_iff_toNat.1 hupper
        have hunderscore : '_'.toNat = 95 := rfl
        omega
      have hfirst : (if startsWord previous cs.head? then ['_', c.toLower] else [c.toLower]).filter
          (· != '_') = [c.toLower] := by
        split
        · simp [hlow]
        · simp [hlow]
      rw [if_pos hupper, List.filter_append, hfirst, ih, List.filter_cons, if_pos hc]
      rfl
    · rw [if_neg hupper, List.filter_cons, List.filter_cons, ih]
      split
      · rw [List.map_cons, Char.toLower_eq_of_not_isUpper hupper]
      · rfl

/-! ## Method names -/

/-- The symbol of a method name is a declared name that stands for this method. -/
theorem declared?_symbol {raw name : Text} (h : declared? raw = some name) :
    declared? (symbol name) = some name := by
  obtain ⟨bare, -, -, hname⟩ := declared?_eq_some_iff.1 h
  refine declared?_eq_some_iff.2 ⟨name, rfl, isIdentifier_of_declared? h, ?_⟩
  rw [hname, underscore_underscore]

theorem tokenize_symbol {raw name : Text} (h : declared? raw = some name) :
    tokenize (symbol name) = [⟨[], .symbol, symbol name⟩] := by
  rw [tokenize, TokenStream.ofText, pieces_symbol (isIdentifier_of_declared? h)]
  rfl

/-! ## Words of a name -/

/-- Two or more lower-case letters and digits, the first one a letter. -/
def IsPart (part : Text) : Prop :=
  ∃ c cs, part = c :: cs ∧ c.isLower = true ∧ cs ≠ [] ∧ ∀ d ∈ cs, (d.isLower || d.isDigit) = true

/-- A word with its first letter in upper case. -/
def capitalize : Text → Text
  | [] => []
  | c :: cs => c.toUpper :: cs

theorem camelizeFrom_append {s : Text} (hs : ∀ c ∈ s, c ≠ '_') (rest : Text) :
    camelizeFrom false (s ++ rest) = s ++ camelizeFrom false rest := by
  induction s with
  | nil => rfl
  | cons c cs ih =>
    obtain ⟨hc, hcs⟩ := List.forall_mem_cons.1 hs
    rw [List.cons_append, camelizeFrom, if_neg hc, if_neg Bool.false_ne_true, ih hcs,
      List.cons_append]

theorem IsPart.notMem {part : Text} (h : IsPart part) : ∀ c ∈ part, c ≠ '_' := by
  obtain ⟨c, cs, rfl, hc, -, hcs⟩ := h
  refine List.forall_mem_cons.2 ⟨?_, fun d hd => ?_⟩
  · rintro rfl
    cases hc
  · rintro rfl
    exact absurd (hcs _ hd) (by decide)

theorem IsPart.camelizeFrom_append {part : Text} (h : IsPart part) (rest : Text) :
    camelizeFrom true (part ++ rest) = capitalize part ++ camelizeFrom false rest := by
  have hne := h.notMem
  obtain ⟨c, cs, rfl, -⟩ := h
  obtain ⟨hc, hcs⟩ := List.forall_mem_cons.1 hne
  rw [List.cons_append, camelizeFrom, if_neg hc, if_pos rfl, Name.camelizeFrom_append hcs]
  rfl

theorem camelizeFrom_flatMap {parts : List Text} (h : ∀ part ∈ parts, IsPart part) :
    camelizeFrom false (parts.flatMap ('_' :: ·)) = parts.flatMap capitalize := by
  induction parts with
  | nil => rfl
  | cons part parts ih =>
    obtain ⟨hpart, hparts⟩ := List.forall_mem_cons.1 h
    rw [List.flatMap_cons, List.cons_append, camelizeFrom, if_pos rfl, hpart.camelizeFrom_append,
      ih hparts, List.flatMap_cons]

theorem camelize_joinWith {parts : List Text} (h : ∀ part ∈ parts, IsPart part) :
    camelize (Text.joinWith '_' parts) = parts.flatMap capitalize := by
  cases parts with
  | nil => rfl
  | cons part parts =>
    obtain ⟨hpart, hparts⟩ := List.forall_mem_cons.1 h
    rw [Text.joinWith_cons, camelize, hpart.camelizeFrom_append, camelizeFrom_flatMap hparts,
      List.flatMap_cons]

theorem underscoreFrom_append {s : Text} (hs : ∀ c ∈ s, c.isUpper = false) (previous : Option Char)
    (rest : Text) :
    underscoreFrom previous (s ++ rest) = s ++ underscoreFrom (s.getLast?.or previous) rest := by
  induction s generalizing previous with
  | nil => rfl
  | cons c cs ih =>
    obtain ⟨hc, hcs⟩ := List.forall_mem_cons.1 hs
    have hlast : (c :: cs).getLast?.or previous = cs.getLast?.or (some c) := by
      rw [List.getLast?_cons, Option.or_of_isSome rfl]
      cases cs.getLast? <;> rfl
    rw [List.cons_append, underscoreFrom, hc, if_neg Bool.false_ne_true, ih hcs, hlast,
      List.cons_append]

theorem IsPart.not_upper {part : Text} (h : IsPart part) : ∀ c ∈ part, c.isUpper = false := by
  have hlower : ∀ c : Char, c.isLower = true → c.isUpper = false := fun c hc => by
    simpa using Char.not_isUpper_of_isLower hc
  obtain ⟨c, cs, rfl, hc, -, hcs⟩ := h
  refine List.forall_mem_cons.2 ⟨hlower c hc, fun d hd => ?_⟩
  rcases Bool.or_eq_true_iff.1 (hcs d hd) with hd | hd
  · exact hlower d hd
  · rw [Bool.eq_false_iff, Ne, isUpper_iff_toNat]
    have := isDigit_iff_toNat.1 hd
    omega

/-- The end of a part starts a word at the upper-case letter behind it. -/
theorem IsPart.startsWord {part : Text} (h : IsPart part) (next : Option Char) :
    startsWord part.getLast? next = true := by
  obtain ⟨c, cs, rfl, hc, hne, hcs⟩ := h
  obtain ⟨init, last, rfl⟩ := (List.eq_nil_or_concat' cs).resolve_left hne
  rw [← List.cons_append, List.getLast?_concat, Name.startsWord]
  rcases Bool.or_eq_true_iff.1 (hcs last (by simp)) with hlast | hlast
  · rw [hlast, Bool.true_or, Bool.true_or]
  · rw [hlast, Bool.or_true, Bool.true_or]

/-- A part in upper case is brought back, with an underscore if a word starts there. -/
theorem IsPart.underscoreFrom_append {part : Text} (h : IsPart part) (previous : Option Char)
    (rest : Text) : ∃ next, underscoreFrom previous (capitalize part ++ rest) =
      (if Name.startsWord previous next then ['_'] else []) ++ part ++
        underscoreFrom part.getLast? rest := by
  have hcase := h.not_upper
  obtain ⟨c, cs, rfl, hc, hne, -⟩ := h
  obtain ⟨-, hcs⟩ := List.forall_mem_cons.1 hcase
  have halpha : c.toUpper.isUpper = true := by
    rw [Char.isUpper_toUpper_eq_isAlpha, Char.isAlpha, hc, Bool.or_true]
  have hback : c.toUpper.toLower = c := by
    rw [Char.toLower_toUpper_eq_toLower, Char.toLower_eq_of_not_isUpper (by simp [hcase c])]
  have hlast : (c :: cs).getLast? = cs.getLast?.or (some c.toUpper) := by
    obtain ⟨init, last, rfl⟩ := (List.eq_nil_or_concat' cs).resolve_left hne
    rw [← List.cons_append, List.getLast?_concat, List.getLast?_concat, Option.some_or]
  refine ⟨(cs ++ rest).head?, ?_⟩
  rw [capitalize, List.cons_append, underscoreFrom, if_pos halpha, hback,
    Name.underscoreFrom_append hcs, hlast]
  split <;> simp

theorem underscoreFrom_flatMap_capitalize {parts : List Text} (h : ∀ part ∈ parts, IsPart part)
    {previous : Option Char} (hprevious : ∀ next, startsWord previous next = true) :
    underscoreFrom previous (parts.flatMap capitalize) = parts.flatMap ('_' :: ·) := by
  induction parts generalizing previous with
  | nil => rfl
  | cons part parts ih =>
    obtain ⟨hpart, hparts⟩ := List.forall_mem_cons.1 h
    obtain ⟨next, hunder⟩ := hpart.underscoreFrom_append previous (parts.flatMap capitalize)
    rw [List.flatMap_cons, hunder, hprevious next, if_pos rfl, ih hparts hpart.startsWord,
      List.flatMap_cons]
    rfl

theorem underscore_camelize {parts : List Text} (h : ∀ part ∈ parts, IsPart part) :
    underscore (camelize (Text.joinWith '_' parts)) = Text.joinWith '_' parts := by
  rw [camelize_joinWith h]
  cases parts with
  | nil => rfl
  | cons part parts =>
    obtain ⟨hpart, hparts⟩ := List.forall_mem_cons.1 h
    obtain ⟨next, hunder⟩ := hpart.underscoreFrom_append none (parts.flatMap capitalize)
    rw [underscore, List.flatMap_cons, hunder, underscoreFrom_flatMap_capitalize hparts hpart.startsWord,
      Text.joinWith_cons]
    rfl

/-! ## One form for each name -/

/-- A declared name has one form: the symbol of its method name is a single token in lower case, it
differs from the name that was declared by underscores and by the case of letters only, and it stands for
the same method. The underscore form of any text is its own, and that of a name in upper camel case has the
words that the name was made of. -/
theorem declared?_canonical :
    (∀ raw name, declared? raw = some name →
      symbol name = ':' :: name ∧
      tokenize (symbol name) = [⟨[], .symbol, symbol name⟩] ∧
      (∀ c ∈ name, c.isUpper = false) ∧
      (∃ bare, bare? raw = some bare ∧
        name.filter (· != '_') = (bare.filter (· != '_')).map Char.toLower) ∧
      declared? (symbol name) = some name) ∧
    (∀ s, underscore (underscore s) = underscore s) ∧
    ∀ parts, (∀ part ∈ parts, IsPart part) →
      underscore (camelize (Text.joinWith '_' parts)) = Text.joinWith '_' parts := by
  refine ⟨fun raw name h => ?_, underscore_underscore, fun parts => underscore_camelize⟩
  obtain ⟨bare, hbare, -, hname⟩ := declared?_eq_some_iff.1 h
  refine ⟨rfl, tokenize_symbol h, ?_, ⟨bare, hbare, ?_⟩, declared?_symbol h⟩
  · rw [hname]
    exact isUpper_of_mem_underscoreFrom
  · rw [hname]
    exact filter_underscoreFrom none bare

/-- An acronym at the end, a mark behind it, and a digit in front of a word. -/
theorem declared?_canonical_marked :
    declared? "'lastHTTP2URL?'".toList = some "last_http2_url?".toList ∧
      declared? ":last_http2_url?".toList = some "last_http2_url?".toList ∧
      IsPart "http2".toList ∧ IsPart "url".toList ∧
      underscore (camelize "http2_url".toList) = "http2_url".toList := by
  have hname : declared? "'lastHTTP2URL?'".toList = some "last_http2_url?".toList := by decide
  have hhttp : IsPart "http2".toList :=
    ⟨'h', ['t', 't', 'p', '2'], rfl, rfl, by decide, List.all_eq_true.1 (by decide)⟩
  have hurl : IsPart "url".toList := ⟨'u', ['r', 'l'], rfl, rfl, by decide, List.all_eq_true.1 (by decide)⟩
  obtain ⟨hdeclared, -, hwords⟩ := declared?_canonical
  exact ⟨hname, (hdeclared _ _ hname).2.2.2.2, hhttp, hurl,
    hwords ["http2".toList, "url".toList]
      (List.forall_mem_cons.2 ⟨hhttp, List.forall_mem_singleton.2 hurl⟩)⟩

end Name

end SchemaLift
