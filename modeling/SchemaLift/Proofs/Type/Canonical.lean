import SchemaLift.Proofs.Type.Grammar
import SchemaLift.Proofs.Type.Render

/-!
# The new form of a type expression is canonical

An expression in its new form is written without marks and aliases: lists around a name and the method
calls that stay. The grammar derives its tokens again (`Whole.derives_renderTokens`), with the same
meaning but for the marks, so reading it gives back all but nullability (`parse_render`).
-/

namespace SchemaLift

/-- No name that an old spelling stands for is an old spelling itself. -/
theorem Scalar.canonical_canonical (name : Text) : canonical (canonical name) = canonical name := by
  have hall : ∀ entry ∈ aliases, canonical entry.2.toList = entry.2.toList := by decide
  cases hfind : aliases.find? fun entry => entry.1.toList == name with
  | none =>
    have hname : canonical name = name := by rw [canonical, hfind]
    rw [hname, hname]
  | some entry =>
    have hname : canonical name = entry.2.toList := by rw [canonical, hfind]
    rw [hname, hall entry (List.mem_of_find?_eq_some hfind)]

namespace TypeSyntax

/-! ## Calls and lists around a name -/

/-- A method that neither marks nor wraps. -/
def Stays (method : Text) : Prop := method ≠ nonNullMethod ∧ method ≠ listMethod

/-- Calls of several methods, one after the other. -/
def calls (e : TypeSyntax) (methods : List Text) : TypeSyntax := methods.foldl call e

/-- Several lists around an element. -/
def lists : Nat → TypeSyntax → TypeSyntax
  | 0, e => e
  | n + 1, e => list (lists n e)

theorem says_calls (e : TypeSyntax) {methods : List Text} (h : ∀ m ∈ methods, Stays m) :
    (e.calls methods).name = e.name ∧ (e.calls methods).kept = e.kept ++ methods ∧
      (e.calls methods).listDepth = e.listDepth ∧ (NonNull (e.calls methods) ↔ NonNull e) := by
  induction methods generalizing e with
  | nil => exact ⟨rfl, (List.append_nil _).symm, rfl, Iff.rfl⟩
  | cons m methods ih =>
    obtain ⟨⟨hnonNull, hlist⟩, hrest⟩ := List.forall_mem_cons.1 h
    obtain ⟨hname, hkept, hdepth, hmark⟩ := ih (call e m) hrest
    refine ⟨hname, ?_, ?_, ?_⟩
    · rw [calls, List.foldl_cons, ← calls, hkept, kept, if_neg (not_or.2 ⟨hnonNull, hlist⟩),
        List.append_assoc, List.singleton_append]
    · rw [calls, List.foldl_cons, ← calls, hdepth, listDepth, if_neg hlist]
    · rw [calls, List.foldl_cons, ← calls, hmark, nonNull_call_iff]
      exact ⟨fun h => h.elim (fun h => absurd h hnonNull) And.right, fun h => .inr ⟨hlist, h⟩⟩

theorem says_lists (n : Nat) (e : TypeSyntax) : (lists n e).name = e.name ∧
    (lists n e).kept = e.kept ∧ (lists n e).listDepth = e.listDepth + n ∧
      (NonNull (lists n e) → NonNull e) := by
  induction n with
  | zero => exact ⟨rfl, rfl, rfl, id⟩
  | succ n ih =>
    exact ⟨ih.1, ih.2.1, congrArg (· + 1) ih.2.2.1, fun h => absurd h (not_nonNull_list _)⟩

/-! ## Words -/

/-- The constant of a derived expression is a path, and the methods that stay are identifiers. -/
theorem Derives.worded {nt : Nonterminal} {e : TypeSyntax} {ts : List Token} (h : Derives nt e ts)
    (hw : TypeExpression.Worded ts) :
    Scan.ConstantPath e.name ∧ ∀ m ∈ e.kept, Scan.Identifier m ∧ Stays m := by
  induction h with
  | marked _ _ ih => exact ih hw.tail
  | operand _ ih => exact ih hw
  | list _ _ _ ih => exact ih fun t ht => hw t (by simp [ht])
  | typesList _ _ _ _ ih => exact ih fun t ht => hw t (by simp [ht])
  | @constant c hc => exact ⟨(hw c (by simp)).1 hc, by rintro m ⟨⟩⟩
  | @typesConstant _ _ c _ _ hc => exact ⟨(hw c (by simp)).1 hc, by rintro m ⟨⟩⟩
  | @call e ts dot m _ _ hm _ ih =>
    obtain ⟨hpath, hkept⟩ := ih fun t ht => hw t (by simp [ht])
    refine ⟨hpath, fun method hmethod => ?_⟩
    rw [kept] at hmethod
    split at hmethod
    · exact hkept method hmethod
    · rename_i hstays
      rcases List.mem_append.1 hmethod with hmethod | hmethod
      · exact hkept method hmethod
      · obtain rfl := List.mem_singleton.1 hmethod
        exact ⟨(hw m (by simp)).2 hm, not_or.1 hstays⟩

theorem Whole.Derives.worded {w : Whole} {ts : List Token} (h : w.Derives ts)
    (hw : TypeExpression.Worded ts) :
    Scan.ConstantPath w.level.name ∧ ∀ m ∈ w.level.kept, Scan.Identifier m ∧ Stays m := by
  have hbody : ∀ {deferred : Bool} {e : TypeSyntax} {ts : List Token}, Body deferred e ts →
      TypeExpression.Worded ts →
        Scan.ConstantPath e.name ∧ ∀ m ∈ e.kept, Scan.Identifier m ∧ Stays m := by
    intro deferred e ts h hw
    cases h with
    | plain h => exact h.worded hw
    | deferred _ _ h _ => exact h.worded fun t ht => hw t (by simp [ht])
  cases h with
  | unmarked h => exact hbody h hw
  | marked _ h => exact hbody h hw.tail

/-! ## Derivations of the new form -/

theorem Derives.ne_nil {nt : Nonterminal} {e : TypeSyntax} {ts : List Token} (h : Derives nt e ts) :
    ts ≠ [] := by
  cases h with
  | operand h => cases h <;> simp
  | _ => simp

/-- The text before the first token does not count. -/
theorem Derives.addGap {nt : Nonterminal} {e : TypeSyntax} {ts : List Token} (h : Derives nt e ts)
    (gap : Text) : Derives nt e (Token.addGap gap ts) := by
  induction h with
  | marked hbang h _ => exact .marked hbang h
  | operand _ ih => exact .operand ih
  | list hopener h hcloser _ => exact .list hopener h hcloser
  | typesList htypes hopener h hcloser _ => exact .typesList htypes hopener h hcloser
  | @constant c hc => exact .constant (c := { c with gap := gap ++ c.gap }) hc
  | typesConstant htypes hdot hc => exact .typesConstant htypes hdot hc
  | @call e ts dot m h hdot hm hkeep ih =>
    rw [Token.addGap_append h.ne_nil]
    exact .call ih hdot hm hkeep

/-- The tokens of a name with method calls. -/
def baseTokens (name : Text) (methods : List Text) : List Token :=
  ⟨[], .constant, name⟩ ::
    methods.flatMap fun method => [⟨[], .dot, ['.']⟩, ⟨[], .identifier, method⟩]

theorem Derives.calls {e : TypeSyntax} {ts : List Token} (h : Derives .operand e ts)
    (hdepth : e.listDepth = 0) {methods : List Text} (hm : ∀ m ∈ methods, Stays m) :
    Derives .operand (e.calls methods) (ts ++
      methods.flatMap fun method => [⟨[], .dot, ['.']⟩, ⟨[], .identifier, method⟩]) := by
  induction methods generalizing e ts with
  | nil => rwa [List.flatMap_nil, List.append_nil]
  | cons m methods ih =>
    obtain ⟨⟨-, hlist⟩, hrest⟩ := List.forall_mem_cons.1 hm
    have hdot : (⟨[], .dot, ['.']⟩ : Token).kind = .dot := rfl
    have hname : (⟨[], .identifier, m⟩ : Token).kind = .identifier := rfl
    have hone : Derives .operand (.call e m) (ts ++ [⟨[], .dot, ['.']⟩, ⟨[], .identifier, m⟩]) :=
      .call h hdot hname (.inr (.inr hdepth))
    have hflat : (TypeSyntax.call e m).listDepth = 0 := by rw [listDepth, if_neg hlist, hdepth]
    have hall := ih hone hflat hrest
    rwa [List.append_assoc] at hall

theorem Derives.lists {e : TypeSyntax} {ts : List Token} (h : Derives .operand e ts) (n : Nat) :
    Derives .operand (e.lists n) (TypeExpression.openers n ++ (ts ++ TypeExpression.closers n)) := by
  induction n with
  | zero => simpa [TypeSyntax.lists, TypeExpression.openers, TypeExpression.closers] using h
  | succ n ih =>
    -- the outermost brackets are the first and the last
    have hopeners : TypeExpression.openers (n + 1) =
        ⟨[], .lbracket, ['[']⟩ :: TypeExpression.openers n := List.replicate_succ
    have hclosers : TypeExpression.closers (n + 1) =
        TypeExpression.closers n ++ [⟨[], .rbracket, [']']⟩] := List.replicate_succ'
    have hopener : (⟨[], .lbracket, ['[']⟩ : Token).kind = .lbracket := rfl
    have hcloser : (⟨[], .rbracket, [']']⟩ : Token).kind = .rbracket := rfl
    have hall := Derives.list hopener (.operand ih) hcloser
    rw [hopeners, hclosers, TypeSyntax.lists]
    simpa only [List.cons_append, List.append_assoc] using hall

/-- The tokens of the new form are derived, without any mark. -/
theorem Whole.derives_renderTokens (deferred : Bool) (n : Nat) (name : Text) {methods : List Text}
    (hm : ∀ m ∈ methods, Stays m) :
    Whole.Derives ⟨false, deferred, lists n (calls (constant name) methods)⟩
      (TypeExpression.renderTokens deferred n (baseTokens name methods)) := by
  have hname : TypeSyntax.Derives .operand (constant name) [⟨[], .constant, name⟩] :=
    .constant (c := ⟨[], .constant, name⟩) rfl
  have hlevel : TypeSyntax.Derives .level (lists n (calls (constant name) methods))
      (TypeExpression.openers n ++ (baseTokens name methods ++ TypeExpression.closers n)) :=
    .operand ((hname.calls rfl hm).lists n)
  cases deferred with
  | false => exact .unmarked (.plain hlevel)
  | true => exact .unmarked (.deferred (.inl rfl) rfl (hlevel.addGap [' ']) rfl)

end TypeSyntax

namespace TypeExpression

open TypeSyntax (Whole Stays baseTokens calls constant)

theorem tokenize_base_append {name : Text} (hname : Scan.ConstantPath name) {methods : List Text}
    (hm : ∀ m ∈ methods, Scan.Identifier m) {rest : Text} (hr : Scan.Delimits rest) :
    tokenize (name ++ methods.flatMap ('.' :: ·) ++ rest) =
      baseTokens name methods ++ tokenize rest := by
  -- a method call is delimited by the dot of the next one
  have hmethods : ∀ methods : List Text, (∀ m ∈ methods, Scan.Identifier m) →
      Scan.Delimits (methods.flatMap ('.' :: ·) ++ rest) ∧
        tokenize (methods.flatMap ('.' :: ·) ++ rest) = (methods.flatMap fun method =>
          [⟨[], .dot, ['.']⟩, ⟨[], .identifier, method⟩]) ++ tokenize rest := by
    intro methods hm
    induction methods with
    | nil => exact ⟨hr, rfl⟩
    | cons m methods ih =>
      obtain ⟨hfirst, hrest⟩ := List.forall_mem_cons.1 hm
      obtain ⟨hdelimits, htokens⟩ := ih hrest
      refine ⟨Scan.delimits_cons (d := '.') (by decide) _, ?_⟩
      rw [List.flatMap_cons, List.append_assoc, List.cons_append, tokenize_char .dot rfl,
        tokenize_identifier_append hfirst hdelimits, htokens]
      rfl
  obtain ⟨hdelimits, htokens⟩ := hmethods methods hm
  rw [List.append_assoc, tokenize_constant_append hname hdelimits, htokens]
  rfl

/-- The new form of an expression has no comment. -/
theorem tokenizeCode_render_eq {t : TypeExpression} (hb : Base t.base) :
    tokenizeCode t.render = tokenize t.render := by
  obtain ⟨ts, -, hstretch, htokens⟩ := exists_tokenize_render hb
  have hall : tokenize t.render = ts := by
    have hnil := htokens [] Scan.delimits_nil
    rwa [List.append_nil, show tokenize [] = [] from rfl, List.append_nil] at hnil
  rw [tokenizeCode, hall]
  apply Token.dropComments_eq_self
  intro u hu hkind
  have hmem := hstretch.kinds u hu
  rw [hkind] at hmem
  revert hmem
  decide

/-- The tokens of the new form are those of the name and of the methods that stay. -/
theorem tokenizeCode_render {s : Text} {t : TypeExpression} {w : Whole}
    (hw : w.Derives (tokenizeCode s)) (hmeans : w.Means t) :
    tokenizeCode t.render = renderTokens t.deferred t.listDepth
      (baseTokens (Scalar.canonical w.level.name) w.level.kept) := by
  have hworded := worded_tokenizeCode s
  obtain ⟨hpath, hkept⟩ := hw.worded hworded
  have hbase : ∀ rest, Scan.Delimits rest → tokenize (t.base ++ rest) =
      baseTokens (Scalar.canonical w.level.name) w.level.kept ++ tokenize rest := by
    intro rest hr
    rw [hmeans.base]
    exact tokenize_base_append (Scalar.constantPath_canonical hpath) (fun m hm => (hkept m hm).1) hr
  have hall := tokenize_render_append (List.cons_ne_nil _ _) hbase Scan.delimits_nil
  have hspec := ofTokens_spec (ofTokens_eq_some_iff.2 ⟨w, hw, hmeans⟩)
  rw [tokenizeCode_render_eq (hspec.2.2 hworded)]
  rwa [List.append_nil, show tokenize [] = [] from rfl, List.append_nil] at hall

/-- An expression in its new form is read as the same expression, but for nullability, and rendering
that one changes nothing more. -/
theorem parse_render {s : Text} {t : TypeExpression} (h : parse s = some t) :
    parse t.render = some { t with nullable := true } ∧
      (parse t.render).map render = some t.render := by
  obtain ⟨w, hw, hmeans⟩ := ofTokens_eq_some_iff.1 h
  have htokens := tokenizeCode_render hw hmeans
  have hstays : ∀ m ∈ w.level.kept, Stays m :=
    fun m hm => ((hw.worded (worded_tokenizeCode s)).2 m hm).2
  have hsame : Whole.Means ⟨false, t.deferred, TypeSyntax.lists t.listDepth
      (calls (constant (Scalar.canonical w.level.name)) w.level.kept)⟩ { t with nullable := true } := by
    obtain ⟨hname, hmethods, hdepth, hmark⟩ :=
      TypeSyntax.says_calls (constant (Scalar.canonical w.level.name)) hstays
    obtain ⟨hname', hmethods', hdepth', hmark'⟩ := TypeSyntax.says_lists t.listDepth
      (calls (constant (Scalar.canonical w.level.name)) w.level.kept)
    refine ⟨?_, ?_, rfl, iff_of_false Bool.noConfusion ?_⟩
    · rw [hname', hname, hmethods', hmethods, TypeSyntax.name, Scalar.canonical_canonical,
        TypeSyntax.kept, List.nil_append]
      exact hmeans.base
    · rw [hdepth', hdepth, TypeSyntax.listDepth, Nat.zero_add]
    · rintro (hmarked | hmarked)
      · cases hmarked
      · exact TypeSyntax.not_nonNull_constant _ (hmark.1 (hmark' hmarked))
  have hparse : parse t.render = some { t with nullable := true } :=
    ofTokens_eq_some_iff.2 ⟨_, htokens ▸ TypeSyntax.Whole.derives_renderTokens _ _ _ hstays, hsame⟩
  exact ⟨hparse, by rw [hparse]; rfl⟩

/-- Marks, an alias, a method that stays and two spellings of a list in a lambda. -/
theorem parse_render_lambda :
    let s := "lambda \x7b ![!types.Int.then_call? .to_list_type]\x7d".toList
    let t : TypeExpression := ⟨"Integer.then_call?".toList, false, 2, true⟩
    parse s = some t ∧ parse t.render = some { t with nullable := true } ∧
      (parse t.render).map render = some t.render := by
  intro s t
  have h : parse s = some t := by decide +kernel
  exact ⟨h, parse_render h⟩

end TypeExpression

end SchemaLift
