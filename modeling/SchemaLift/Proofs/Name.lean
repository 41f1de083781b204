import Mathlib.Data.List.Basic
import SchemaLift.Name
import SchemaLift.Proofs.Token.Lookahead

/-!
# Method names as tokens

The method name of a declared name is in underscore form, so it is a word in lower case, with or
without a mark at its end, and the scanner reads it as one token: an identifier, or one of the block
words if the name is `do` or `end` (`pieces_declared?_append`). As it is declared, the name is a symbol or
a string (`exists_pieces_of_declared?`).
-/

namespace SchemaLift

theorem toNat_toLower {c : Char} (h : c.isUpper = true) : c.toLower.toNat = c.toNat + 32 := by
  have hu := isUpper_iff_toNat.1 h
  have hval : c.val ≥ 'A'.val ∧ c.val ≤ 'Z'.val :=
    ⟨UInt32.le_iff_toNat_le.2 hu.1, UInt32.le_iff_toNat_le.2 hu.2⟩
  have hlower : c.toLower.val = c.val + 32 := by
    unfold Char.toLower
    rw [dif_pos hval]
    rfl
  have hle : c.val.toNat ≤ 90 := hu.2
  show c.toLower.val.toNat = c.val.toNat + 32
  rw [hlower, UInt32.toNat_add]
  show (c.val.toNat + 32) % 2 ^ 32 = c.val.toNat + 32
  omega

namespace Scan

theorem isWordStart_toLower {c : Char} (h : c.isUpper = true) : isWordStart c.toLower = true := by
  have hu := isUpper_iff_toNat.1 h
  rw [isWordStart_iff_toNat, toNat_toLower h]
  omega

end Scan

namespace Name

theorem isUpper_toLower {c : Char} (h : c.isUpper = true) : c.toLower.isUpper = false := by
  have hu := isUpper_iff_toNat.1 h
  rw [Bool.eq_false_iff, Ne, isUpper_iff_toNat, toNat_toLower h]
  omega

theorem isWordChar_underscoreFrom {s : Text} (h : ∀ c ∈ s, Scan.isWordChar c = true)
    (previous : Option Char) : ∀ c ∈ underscoreFrom previous s, Scan.isWordChar c = true := by
  induction s generalizing previous with
  | nil => intro c hc; cases hc
  | cons c cs ih =>
    have hrest := ih (fun d hd => h d (List.mem_cons_of_mem c hd)) (some c)
    intro d hd
    rw [underscoreFrom] at hd
    split at hd
    · rename_i hu
      have hlow := Scan.isWordChar_of_isWordStart (Scan.isWordStart_toLower hu)
      rcases List.mem_append.1 hd with hd | hd
      · split at hd
        · rcases List.mem_cons.1 hd with rfl | hd
          · decide
          · rw [List.mem_singleton.1 hd]
            exact hlow
        · rw [List.mem_singleton.1 hd]
          exact hlow
      · exact hrest d hd
    · rcases List.mem_cons.1 hd with rfl | hd
      · exact h _ List.mem_cons_self
      · exact hrest d hd

/-- A mark at the end of a name stays where it is. -/
theorem underscoreFrom_mark {mark : Char} (hm : mark = '?' ∨ mark = '!') (s : Text)
    (previous : Option Char) :
    underscoreFrom previous (s ++ [mark]) = underscoreFrom previous s ++ [mark] := by
  have hupper : mark.isUpper = false := by rcases hm with rfl | rfl <;> decide
  have hlower : mark.isLower = false := by rcases hm with rfl | rfl <;> decide
  induction s generalizing previous with
  | nil => simp [underscoreFrom, hupper]
  | cons c cs ih =>
    have hhead : startsWord previous (cs ++ [mark]).head? = startsWord previous cs.head? := by
      cases cs with
      | nil => cases previous <;> simp [startsWord, hlower]
      | cons d ds => rfl
    simp only [List.cons_append, underscoreFrom, ih, hhead]
    split
    · rw [List.append_assoc]
    · rfl

/-- The first letter of a word is brought to lower case. -/
theorem underscore_cons {c : Char} (hc : Scan.isWordStart c = true) (cs : Text) :
    ∃ d, underscore (c :: cs) = d :: underscoreFrom (some c) cs ∧ Scan.isWordStart d = true ∧
      d.isUpper = false := by
  unfold underscore
  rw [underscoreFrom]
  split
  · rename_i hu
    exact ⟨c.toLower, rfl, Scan.isWordStart_toLower hu, isUpper_toLower hu⟩
  · rename_i hu
    exact ⟨c, rfl, hc, by simpa using hu⟩

theorem isIdentifier_shape {name : Text} (h : isIdentifier name = true) :
    ∃ c cs, Scan.isWordStart c = true ∧ (∀ d ∈ cs, Scan.isWordChar d = true) ∧
      (name = c :: cs ∨ ∃ mark, (mark = '?' ∨ mark = '!') ∧ name = c :: (cs ++ [mark])) := by
  unfold isIdentifier at h
  by_cases hlast : name.getLast?.any (fun c => c == '?' || c == '!') = true
  · rw [if_pos hlast] at h
    obtain ⟨mark, hmark, hm⟩ := (Option.any_eq_true _ _).1 hlast
    cases hstem : name.dropLast with
    | nil => rw [hstem] at h; cases h
    | cons c cs =>
      rw [hstem] at h
      obtain ⟨hc, hcs⟩ := Bool.and_eq_true_iff.1 h
      refine ⟨c, cs, hc, List.all_eq_true.1 hcs, Or.inr ⟨mark, by simpa using hm, ?_⟩⟩
      rw [← List.cons_append, ← hstem, List.dropLast_append_getLast? _ hmark]
  · rw [if_neg hlast] at h
    cases name with
    | nil => cases h
    | cons c cs =>
      obtain ⟨hc, hcs⟩ := Bool.and_eq_true_iff.1 h
      exact ⟨c, cs, hc, List.all_eq_true.1 hcs, Or.inl rfl⟩

theorem isIdentifier_of_word {c : Char} (hc : Scan.isWordStart c = true) {stem : Text}
    (hs : ∀ d ∈ stem, Scan.isWordChar d = true) : isIdentifier (c :: stem) = true := by
  have hword : ∀ d ∈ c :: stem, Scan.isWordChar d = true :=
    List.forall_mem_cons.2 ⟨Scan.isWordChar_of_isWordStart hc, hs⟩
  have hlast : (c :: stem).getLast?.any (fun d => d == '?' || d == '!') = false := by
    rw [Option.any_eq_false]
    intro d hd
    have hd := hword d (List.mem_of_getLast? hd)
    rw [Bool.or_eq_false_iff, beq_eq_false_iff_ne, beq_eq_false_iff_ne]
    exact ⟨ne_of_holds hd (by decide), ne_of_holds hd (by decide)⟩
  rw [isIdentifier, hlast, if_neg Bool.false_ne_true]
  exact Bool.and_eq_true_iff.2 ⟨hc, List.all_eq_true.2 hs⟩

theorem isIdentifier_of_mark {c : Char} (hc : Scan.isWordStart c = true) {stem : Text}
    (hs : ∀ d ∈ stem, Scan.isWordChar d = true) {mark : Char} (hm : mark = '?' ∨ mark = '!') :
    isIdentifier (c :: (stem ++ [mark])) = true := by
  have hlast : (c :: (stem ++ [mark])).getLast?.any (fun d => d == '?' || d == '!') = true := by
    rw [← List.cons_append, List.getLast?_concat]
    rcases hm with rfl | rfl <;> rfl
  rw [isIdentifier, hlast, if_pos rfl, ← List.cons_append, List.dropLast_concat]
  exact Bool.and_eq_true_iff.2 ⟨hc, List.all_eq_true.2 hs⟩

theorem declared?_eq_some_iff {raw name : Text} : declared? raw = some name ↔
    ∃ bare, bare? raw = some bare ∧ isIdentifier bare = true ∧ name = underscore bare := by
  simp only [declared?, Option.bind_eq_some_iff, Option.ite_none_right_eq_some, Option.some.injEq,
    eq_comm (a := name)]

/-- The words that method names are. -/
theorem declared?_shape {raw name : Text} (h : declared? raw = some name) :
    ∃ c stem, Scan.isWordStart c = true ∧ c.isUpper = false ∧
      (∀ d ∈ stem, Scan.isWordChar d = true) ∧
      (name = c :: stem ∨ ∃ mark, (mark = '?' ∨ mark = '!') ∧ name = c :: (stem ++ [mark])) := by
  obtain ⟨bare, -, hid, rfl⟩ := declared?_eq_some_iff.1 h
  obtain ⟨c, cs, hc, hcs, hbare⟩ := isIdentifier_shape hid
  obtain ⟨d, hunder, hd, hupper⟩ := underscore_cons hc cs
  refine ⟨d, underscoreFrom (some c) cs, hd, hupper, isWordChar_underscoreFrom hcs _, ?_⟩
  rcases hbare with rfl | ⟨mark, hm, rfl⟩
  · exact Or.inl hunder
  · refine Or.inr ⟨mark, hm, ?_⟩
    rw [← List.cons_append, underscore, underscoreFrom_mark hm, ← underscore, hunder]
    rfl

theorem mem_declared? {raw name : Text} (h : declared? raw = some name) {d : Char} (hd : d ∈ name) :
    Scan.isWordChar d = true ∨ d = '?' ∨ d = '!' := by
  obtain ⟨c, stem, hc, -, hs, rfl | ⟨mark, hm, rfl⟩⟩ := declared?_shape h
  · have hword : ∀ d ∈ c :: stem, Scan.isWordChar d = true :=
      List.forall_mem_cons.2 ⟨Scan.isWordChar_of_isWordStart hc, hs⟩
    exact .inl (hword d hd)
  · exact Scan.mem_marked hc hs hm hd

/-- A method name is one token where nothing follows that could continue it. -/
theorem pieces_declared?_append {raw name : Text} (h : declared? raw = some name) {rest : Text}
    (hr : Scan.Delimits rest) :
    Scan.pieces (name ++ rest) = ⟨some (Scan.plainKind name), name⟩ :: Scan.pieces rest := by
  obtain ⟨c, stem, hc, hu, hs, rfl | ⟨mark, hm, rfl⟩⟩ := declared?_shape h
  · rw [List.cons_append, Scan.pieces_word_append hc hu hs hr]
  · have hid : Scan.Identifier (c :: (stem ++ [mark])) := .marked hc hu hs hm
    have hne : ∀ w : Text, w.getLast? ≠ some mark → c :: (stem ++ [mark]) ≠ w := by
      rintro w hw rfl
      rw [← List.cons_append, List.getLast?_concat] at hw
      exact hw rfl
    have hkind : Scan.plainKind (c :: (stem ++ [mark])) = .identifier := by
      unfold Scan.plainKind
      rw [if_neg (hne _ _), if_neg (hne _ _)]
      · rcases hm with rfl | rfl <;> decide
      · rcases hm with rfl | rfl <;> decide
    rw [hid.pieces_append hr, hkind]

/-! ## Names as they are declared -/

theorem isIdentifier_of_declared? {raw name : Text} (h : declared? raw = some name) :
    isIdentifier name = true := by
  obtain ⟨c, stem, hc, -, hs, rfl | ⟨mark, hm, rfl⟩⟩ := declared?_shape h
  · exact isIdentifier_of_word hc hs
  · exact isIdentifier_of_mark hc hs hm

theorem pieces_symbol {name : Text} (h : isIdentifier name = true) :
    Scan.pieces (symbol name) = [⟨some .symbol, symbol name⟩] := by
  obtain ⟨c, stem, hc, hs, rfl | ⟨mark, hm, rfl⟩⟩ := isIdentifier_shape h
  · have hend : ∀ d ∈ ([] : Text).head?, Scan.isWordChar d = false ∧ d ≠ '?' ∧ d ≠ '!' ∧ d ≠ '=' := by
      rintro d ⟨⟩
    have hword := Scan.pieces_symbol_append hc hs hend
    rwa [List.append_nil] at hword
  · exact Scan.pieces_symbol_mark hc hs hm

theorem inert_of_isIdentifier {name : Text} (h : isIdentifier name = true) :
    ∀ d ∈ name, Quoted.Scanner.Inert d := by
  have hmark : ∀ {d : Char}, d = '?' ∨ d = '!' → Quoted.Scanner.Inert d := by
    rintro d (rfl | rfl)
    · exact ⟨by decide, by decide, by decide, by decide, by decide, by decide⟩
    · exact ⟨by decide, by decide, by decide, by decide, by decide, by decide⟩
  obtain ⟨c, stem, hc, hs, rfl | ⟨mark, hm, rfl⟩⟩ := isIdentifier_shape h
  · refine List.forall_mem_cons.2 ⟨?_, fun d hd => Quoted.Scanner.inert_of_isWordChar (hs d hd)⟩
    exact Quoted.Scanner.inert_of_isWordChar (Scan.isWordChar_of_isWordStart hc)
  · intro d hd
    rcases Scan.mem_marked hc hs hm hd with hword | hd
    · exact Quoted.Scanner.inert_of_isWordChar hword
    · exact hmark hd

/-- A declared name is a single token, a symbol or a string. -/
theorem exists_pieces_of_declared? {raw name : Text} (h : declared? raw = some name) :
    ∃ kind ∈ [TokenKind.symbol, .doubleQuoted, .singleQuoted], Scan.pieces raw = [⟨some kind, raw⟩] := by
  obtain ⟨bare, hbare, hid, -⟩ := declared?_eq_some_iff.1 h
  have hinert := inert_of_isIdentifier hid
  unfold bare? at hbare
  split at hbare
  · cases hbare
  rename_i c cs
  split at hbare
  · rename_i hcolon
    obtain rfl := Option.some.inj hbare
    exact ⟨.symbol, by simp, hcolon ▸ pieces_symbol hid⟩
  split at hbare
  swap
  · cases hbare
  rename_i hquote
  obtain rfl := Option.some.inj hbare
  obtain ⟨hc, hlast⟩ := hquote
  have hcs : cs = cs.dropLast ++ [c] := (List.dropLast_append_getLast? c hlast).symm
  generalize cs.dropLast = bare at *
  subst hcs
  rcases hc with rfl | rfl
  · have hclose : Quoted.stringClose (bare ++ ['"']) = some bare.length := by
      rw [Quoted.stringClose, Quoted.Scanner.closing_eq .outerString]
      have hrun : Quoted.Scanner.run ⟨[.string], .plain⟩ bare = ⟨[.string], .plain⟩ :=
        Quoted.Scanner.run_inert hinert
      exact Quoted.Scanner.closeFrom_of_step (by simp [hrun]) (by rw [hrun]; rfl) []
    have hhead : Scan.head '"' ((bare ++ ['"']) ++ []) = (some .doubleQuoted, (bare ++ ['"']).length) := by
      rw [List.append_nil, List.length_append]
      simp [Scan.head, hclose]
    have hpieces := Scan.pieces_of_head hhead
    rw [List.append_nil] at hpieces
    exact ⟨.doubleQuoted, by simp, hpieces⟩
  · have hextent : ∀ s : Text, (∀ d ∈ s, Quoted.Scanner.Inert d) →
        Quoted.plainExtent '\'' (s ++ ['\'']) = .closed (s.length + 1) := by
      intro s hs
      induction s with
      | nil => rfl
      | cons d ds ih =>
        obtain ⟨hd, hds⟩ := List.forall_mem_cons.1 hs
        rw [List.cons_append, Scan.plainExtent_cons hd.1, if_neg hd.2.2.2.2.1, ih hds, List.length_cons]
        rfl
    have hhead : Scan.head '\'' ((bare ++ ['\'']) ++ []) =
        (some .singleQuoted, (bare ++ ['\'']).length) := by
      rw [List.append_nil, List.length_append]
      simp [Scan.head, hextent bare hinert]
    have hpieces := Scan.pieces_of_head hhead
    rw [List.append_nil] at hpieces
    exact ⟨.singleQuoted, by simp, hpieces⟩

end Name

end SchemaLift
