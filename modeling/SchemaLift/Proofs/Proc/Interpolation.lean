import Mathlib.Data.List.Forall2
import SchemaLift.Proc.Accessor
import SchemaLift.Proofs.Text.Lines
import SchemaLift.Proofs.Token.Interpolation

/-!
# Strings with their interpolations adapted

A string is searched for `#{`, whatever the scanner of strings makes of it. As long as no interpolation
stands right behind a backslash, the search finds those that the scanner does, and each of them comes
back adapted (`adaptLiteral_spec`).
-/

namespace SchemaLift.Accessor

open Quoted (Scanner Interpolation interpolationsFrom)

/-! ## The first interpolation -/

theorem splitInterpolation_cons {c : Char} {cs : Text} (h : ¬(c = '#' ∧ cs.head? = some '{')) :
    splitInterpolation (c :: cs) =
      (splitInterpolation cs).map fun found => (c :: found.1, found.2) := by
  rw [splitInterpolation]
  rintro ds rfl rfl
  exact h ⟨rfl, rfl⟩

/-- A text without `#{` interpolates nothing. -/
theorem interpolationsFrom_of_split_none {s : Text} (h : splitInterpolation s = none)
    (previous : Char) {taken : Nat} (htaken : taken ≤ 1) : interpolationsFrom previous taken s = [] := by
  induction s generalizing previous taken with
  | nil => exact Quoted.interpolationsFrom_nil previous taken
  | cons c cs ih =>
    by_cases hopen : c = '#' ∧ cs.head? = some '{'
    · obtain ⟨rfl, hcs⟩ := hopen
      obtain ⟨ds, rfl⟩ := List.head?_eq_some_iff.1 hcs
      cases h
    · rw [splitInterpolation_cons hopen, Option.map_eq_none_iff] at h
      match taken, htaken with
      | 0, _ =>
        by_cases hc : c = '\\'
        · subst hc
          exact ih h '\\' le_rfl
        · rw [Quoted.interpolationsFrom_plain hc hopen]
          exact ih h c (Nat.zero_le 1)
      | 1, _ => exact ih h c (Nat.zero_le 1)

/-- Where the first `#{` stands, the text before it alone says whether its hash sign is escaped. -/
theorem splitInterpolation_spec {s opening after : Text}
    (h : splitInterpolation s = some (opening, after)) : ∃ before, opening = before ++ ['#', '{'] ∧
      s = before ++ '#' :: '{' :: after ∧
      ∀ (previous : Char) (taken : Nat), taken ≤ 1 → (taken = 1 → previous = '\\') →
        ∃ taken' ≤ 1, (taken' = 1 → before.getLastD previous = '\\') ∧ (before = [] → taken' = taken) ∧
          ∀ rest, interpolationsFrom previous taken (before ++ '#' :: '{' :: rest) =
            interpolationsFrom (before.getLastD previous) taken' ('#' :: '{' :: rest) := by
  induction s generalizing opening with
  | nil => cases h
  | cons c cs ih =>
    by_cases hopen : c = '#' ∧ cs.head? = some '{'
    · obtain ⟨rfl, hcs⟩ := hopen
      obtain ⟨ds, rfl⟩ := List.head?_eq_some_iff.1 hcs
      cases h
      exact ⟨[], rfl, rfl, fun _ taken htaken hescaped =>
        ⟨taken, htaken, hescaped, fun _ => rfl, fun _ => rfl⟩⟩
    · rw [splitInterpolation_cons hopen] at h
      obtain ⟨⟨opening', after'⟩, hsplit, heq⟩ := Option.map_eq_some_iff.1 h
      cases heq
      obtain ⟨before, rfl, rfl, hbefore⟩ := ih hsplit
      have hopen' : ∀ rest, ¬(c = '#' ∧ (before ++ '#' :: '{' :: rest).head? = some '{') := by
        intro rest
        cases before with
        | nil => exact fun h => absurd h.2 (by simp)
        | cons d before => exact hopen
      refine ⟨c :: before, rfl, rfl, fun previous taken htaken hescaped => ?_⟩
      -- the character decides whether the next one is taken with it
      obtain ⟨taken₀, htaken₀, hescaped₀, hstep⟩ : ∃ taken₀ ≤ 1, (taken₀ = 1 → c = '\\') ∧
          ∀ rest, interpolationsFrom previous taken (c :: (before ++ '#' :: '{' :: rest)) =
            interpolationsFrom c taken₀ (before ++ '#' :: '{' :: rest) := by
        match taken, htaken with
        | 0, _ =>
          by_cases hc : c = '\\'
          · subst hc
            exact ⟨1, le_rfl, fun _ => rfl, fun _ => rfl⟩
          · exact ⟨0, Nat.zero_le 1, fun h => absurd h (by decide),
              fun rest => Quoted.interpolationsFrom_plain hc (hopen' rest)⟩
        | 1, _ => exact ⟨0, Nat.zero_le 1, fun h => absurd h (by decide), fun _ => rfl⟩
      obtain ⟨taken', htaken', hescaped', -, hrest⟩ := hbefore c taken₀ htaken₀ hescaped₀
      rw [List.getLastD_cons]
      exact ⟨taken', htaken', hescaped', fun h => absurd h (List.cons_ne_nil c before),
        fun rest => (hstep rest).trans (hrest rest)⟩

/-- At the first `#{` of a string, the backslash before it says whether it is escaped, unless that one
is escaped itself. -/
theorem interpolationsFrom_split {s opening after : Text} {previous : Char}
    (h : splitInterpolation s = some (opening, after))
    (hescape : ∀ i ∈ interpolationsFrom previous 0 s, i.previous ≠ '\\') :
    ∃ before, opening = before ++ ['#', '{'] ∧ s = before ++ '#' :: '{' :: after ∧
      if before.getLast? = some '\\' then
        ∀ rest, interpolationsFrom previous 0 (opening ++ rest) = interpolationsFrom '{' 0 rest
      else ∀ rest, interpolationsFrom previous 0 (opening ++ rest) =
        interpolationsFrom (before.getLastD previous) 0 ('#' :: '{' :: rest) := by
  obtain ⟨before, rfl, rfl, hbefore⟩ := splitInterpolation_spec h
  obtain ⟨taken, htaken, hescaped, hnil, hrest⟩ := hbefore previous 0 (Nat.zero_le 1)
    fun h => absurd h (by decide)
  refine ⟨before, rfl, rfl, ?_⟩
  simp only [List.append_assoc, List.cons_append, List.nil_append, hrest]
  have hlast : before ≠ [] → before.getLast? = some (before.getLastD previous) := by
    intro hne
    rw [List.getLastD_eq_getLast?, List.getLast?_eq_some_getLast hne]
    rfl
  match taken, htaken with
  | 0, _ =>
    rw [if_neg]
    · exact fun _ => rfl
    · intro hback
      have hfirst : ∃ i ∈ interpolationsFrom '\\' 0 ('#' :: '{' :: after), i.previous = '\\' := by
        rw [interpolationsFrom]
        cases Quoted.interpolationClose after <;> exact ⟨_, List.mem_cons_self, rfl⟩
      obtain ⟨i, hi, hprevious⟩ := hfirst
      refine hescape i ?_ hprevious
      rw [hrest, List.getLastD_eq_getLast?, hback]
      exact hi
  | 1, _ =>
    have hne : before ≠ [] := fun heq => absurd (hnil heq) (by decide)
    rw [if_pos (by rw [hlast hne, hescaped rfl])]
    intro rest
    exact (Quoted.interpolationsFrom_plain (by decide) (by simp))

/-! ## Strings with their interpolations adapted -/

/-- The text of a string after the character `previous`, and what becomes of it: each interpolation is
adapted, and the scanner of quoted text sees no difference up to the last character. -/
structure LiteralAdapted (adapt : Text → Except SkipReason Adapted) (previous : Char) (s : Text)
    (out : Adapted) : Prop where
  codes : List.Forall₂ (fun i i' => ∃ a, adapt i.code = .ok a ∧ i'.code = a.text)
    (interpolationsFrom previous 0 s) (interpolationsFrom previous 0 out.text)
  reads : out.readsArgs = true ↔
    ∃ i ∈ interpolationsFrom previous 0 s, ∃ a, adapt i.code = .ok a ∧ a.readsArgs = true
  same : Scanner.Same s.dropLast out.text.dropLast
  head : out.text.head? = s.head?
  last : out.text.getLast? = s.getLast?

theorem LiteralAdapted.of_nil {adapt : Text → Except SkipReason Adapted} {previous : Char} {s : Text}
    (h : interpolationsFrom previous 0 s = []) : LiteralAdapted adapt previous s ⟨s, false⟩ where
  codes := by rw [h]; exact .nil
  reads := by
    rw [h]
    exact ⟨fun h => absurd h Bool.false_ne_true, fun ⟨_, hi, _⟩ => absurd hi List.not_mem_nil⟩
  same := .refl _
  head := rfl
  last := rfl

/-- What stands in front of a string does not matter to the scanner. -/
theorem same_append_dropLast {w w' t t' : Text} (hw : Scanner.Same w w')
    (ht : Scanner.Same t.dropLast t'.dropLast) (hne : t ≠ []) (hlast : t'.getLast? = t.getLast?) :
    Scanner.Same (w ++ t).dropLast (w' ++ t').dropLast := by
  have hne' : t' ≠ [] := by
    rintro rfl
    exact hne (List.getLast?_eq_none_iff.1 hlast.symm)
  rw [List.dropLast_append_of_ne_nil hne, List.dropLast_append_of_ne_nil hne']
  exact hw.append ht

/-- An opening that the scanner passes over. -/
theorem LiteralAdapted.skip {adapt : Text → Except SkipReason Adapted} {previous next : Char}
    {opening after : Text} {rest : Adapted} (h : LiteralAdapted adapt next after rest)
    (hopening : opening ≠ [])
    (hskip : ∀ s, interpolationsFrom previous 0 (opening ++ s) = interpolationsFrom next 0 s) :
    LiteralAdapted adapt previous (opening ++ after) ⟨opening ++ rest.text, rest.readsArgs⟩ where
  codes := by
    rw [hskip, hskip]
    exact h.codes
  reads := by
    rw [hskip]
    exact h.reads
  same := by
    by_cases hafter : after = []
    · subst hafter
      have hrest : rest.text = [] := List.getLast?_eq_none_iff.1 h.last
      rw [hrest]
      exact .refl _
    · exact same_append_dropLast (.refl opening) h.same hafter h.last
  head := by
    obtain ⟨c, cs, rfl⟩ := List.exists_cons_of_ne_nil hopening
    rfl
  last := by rw [List.getLast?_append, List.getLast?_append, h.last]

/-- An interpolation between an opening and its closing character. -/
theorem LiteralAdapted.interpolate {adapt : Text → Except SkipReason Adapted}
    {previous before last : Char} {opening code after : Text} {a rest : Adapted}
    (h : LiteralAdapted adapt last (last :: after) rest) (hopening : opening ≠ [])
    (hlast : last ≠ '\\' ∧ last ≠ '#')
    (hopen : ∀ s, interpolationsFrom previous 0 (opening ++ s) =
      interpolationsFrom before 0 ('#' :: '{' :: s))
    (hclose : Quoted.interpolationClose (code ++ last :: after) = some code.length)
    (hcode : adapt code = .ok a) (hsame : Scanner.Same code a.text) :
    LiteralAdapted adapt previous (opening ++ code ++ last :: after)
      ⟨opening ++ a.text ++ rest.text, a.readsArgs || rest.readsArgs⟩ := by
  obtain ⟨after', hrest⟩ : ∃ after', rest.text = last :: after' :=
    List.head?_eq_some_iff.1 h.head
  have hclose' : Quoted.interpolationClose (a.text ++ last :: after') = some a.text.length := by
    have hcode : Quoted.Open [.code 0] := .outerCode 0
    rw [Quoted.interpolationClose, Scanner.closing_eq hcode] at hclose ⊢
    exact hsame.closeFrom hcode hclose after'
  have hpass : ∀ s, interpolationsFrom last 0 (last :: s) = interpolationsFrom last 0 s :=
    fun s => Quoted.interpolationsFrom_plain hlast.1 fun h => hlast.2 h.1
  have hold : interpolationsFrom previous 0 (opening ++ code ++ last :: after) =
      ⟨before, code⟩ :: interpolationsFrom last 0 (last :: after) := by
    rw [List.append_assoc, hopen, Quoted.interpolationsFrom_open hclose, hpass]
  have hnew : interpolationsFrom previous 0 (opening ++ a.text ++ rest.text) =
      ⟨before, a.text⟩ :: interpolationsFrom last 0 rest.text := by
    rw [hrest, List.append_assoc, hopen, Quoted.interpolationsFrom_open hclose', hpass]
  constructor
  · rw [hold, hnew]
    exact .cons ⟨a, hcode, rfl⟩ h.codes
  · rw [hold, Bool.or_eq_true, h.reads, List.exists_mem_cons_iff]
    refine or_congr_left ⟨fun ha => ⟨a, hcode, ha⟩, ?_⟩
    rintro ⟨a', ha', hreads⟩
    rw [hcode] at ha'
    cases ha'
    exact hreads
  · exact same_append_dropLast ((Scanner.Same.refl opening).append hsame) h.same
      (List.cons_ne_nil _ _) h.last
  · obtain ⟨c, cs, rfl⟩ := List.exists_cons_of_ne_nil hopening
    rfl
  · rw [List.getLast?_append, h.last, List.getLast?_cons, Option.some_or, List.getLast?_append,
      List.getLast?_cons, Option.some_or]

theorem adaptLiteral_spec {adapt : Text → Except SkipReason Adapted} {unclosed : SkipReason}
    {fuel : Nat} {s : Text} {out : Adapted} {previous : Char} (hfuel : s.length ≤ fuel)
    (hout : adaptLiteral adapt unclosed fuel s = .ok out)
    (hescape : ∀ i ∈ interpolationsFrom previous 0 s, i.previous ≠ '\\')
    (hsame : ∀ i ∈ interpolationsFrom previous 0 s, ∀ a, adapt i.code = .ok a →
      Scanner.Same i.code a.text) : LiteralAdapted adapt previous s out := by
  induction fuel generalizing s out previous with
  | zero =>
    obtain rfl := List.eq_nil_of_length_eq_zero (Nat.le_zero.1 hfuel)
    cases hout
    exact .of_nil (Quoted.interpolationsFrom_nil previous 0)
  | succ fuel ih =>
    rw [adaptLiteral] at hout
    cases hsplit : splitInterpolation s with
    | none =>
      rw [hsplit] at hout
      cases hout
      exact .of_nil (interpolationsFrom_of_split_none hsplit previous (Nat.zero_le 1))
    | some found =>
      obtain ⟨opening, after⟩ := found
      obtain ⟨before, rfl, rfl, hbefore⟩ := interpolationsFrom_split hsplit hescape
      have hne : before ++ ['#', '{'] ≠ [] := by simp
      have htake : (before ++ ['#', '{']).take ((before ++ ['#', '{']).length - 2) = before := by
        simp
      have hs : before ++ '#' :: '{' :: after = before ++ ['#', '{'] ++ after := by simp
      rw [hsplit] at hout
      rw [hs] at hfuel hescape hsame ⊢
      simp only [htake, Text.endsWith, beq_iff_eq] at hout
      by_cases hback : before.getLast? = some '\\'
      · rw [if_pos hback] at hout hbefore
        obtain ⟨rest, hrest, heq⟩ := bind_eq_ok_iff.1 hout
        cases heq
        rw [hbefore] at hescape hsame
        refine (ih ?_ hrest hescape hsame).skip hne hbefore
        simp only [List.length_append, List.length_cons] at hfuel
        omega
      · rw [if_neg hback] at hout hbefore
        cases hclose : Quoted.interpolationClose after with
        | none =>
          rw [hclose] at hout
          cases hout
        | some n =>
          rw [hclose] at hout
          obtain ⟨a, ha, hout⟩ := bind_eq_ok_iff.1 hout
          obtain ⟨rest, hrest, heq⟩ := bind_eq_ok_iff.1 hout
          cases heq
          have hopen : Quoted.Open [.code 0] := .outerCode 0
          have hfrom := hclose
          rw [Quoted.interpolationClose, Scanner.closing_eq hopen] at hfrom
          obtain ⟨code, last, tail, rfl, rfl, hcode, hend⟩ :=
            Scanner.exists_of_closeFrom hopen.ne_nil hfrom
          rw [List.take_left] at ha
          rw [List.drop_left] at hrest
          have hlast : last ≠ '\\' ∧ last ≠ '#' := by
            rcases Scanner.step_closes hcode hend with rfl | rfl | rfl <;> decide
          have hpass : interpolationsFrom last 0 (last :: tail) = interpolationsFrom last 0 tail :=
            Quoted.interpolationsFrom_plain hlast.1 fun h => hlast.2 h.1
          rw [hbefore, Quoted.interpolationsFrom_open hclose, ← hpass] at hescape hsame
          rw [← List.append_assoc]
          refine (ih ?_ hrest (fun i hi => hescape i (List.mem_cons_of_mem _ hi))
            fun i hi => hsame i (List.mem_cons_of_mem _ hi)).interpolate hne hlast hbefore hclose ha
              (hsame _ List.mem_cons_self a ha)
          simp only [List.length_append, List.length_cons] at hfuel ⊢
          omega

/-- A character that says nothing about the next one stays in front of what becomes of the rest. -/
theorem adaptLiteral_cons {c : Char} (hc : c ≠ '\\' ∧ c ≠ '#')
    (adapt : Text → Except SkipReason Adapted) (unclosed : SkipReason) (fuel : Nat) (s : Text) :
    adaptLiteral adapt unclosed (fuel + 1) (c :: s) =
      (adaptLiteral adapt unclosed (fuel + 1) s).map fun out => ⟨c :: out.text, out.readsArgs⟩ := by
  rw [adaptLiteral, adaptLiteral, splitInterpolation_cons fun h => hc.2 h.1]
  cases hsplit : splitInterpolation s with
  | none => rfl
  | some found =>
    obtain ⟨opening, after⟩ := found
    obtain ⟨before, rfl, -, -⟩ := splitInterpolation_spec hsplit
    have htake : (before ++ ['#', '{']).take ((before ++ ['#', '{']).length - 2) = before := by
      simp
    have htake' : (c :: (before ++ ['#', '{'])).take ((c :: (before ++ ['#', '{'])).length - 2) =
        c :: before := by
      simp
    have hback : Text.endsWith (c :: before) '\\' = Text.endsWith before '\\' := by
      cases before with
      | nil => simpa [Text.endsWith] using hc.1
      | cons d before => rfl
    simp only [Option.map_some, htake, htake', hback]
    split
    · cases adaptLiteral adapt unclosed fuel after <;> rfl
    · cases Quoted.interpolationClose after with
      | none => rfl
      | some n =>
        simp only
        cases adapt (after.take n) with
        | error => rfl
        | ok a =>
          simp only [bind, Except.bind]
          cases adaptLiteral adapt unclosed fuel (after.drop n) <;> rfl

end SchemaLift.Accessor
