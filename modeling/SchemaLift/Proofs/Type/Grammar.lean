import SchemaLift.Proofs.Type.Expression
import SchemaLift.Proofs.Type.Syntax

/-!
# The grammar of type expressions

The reader of type expressions works with a stack of the wrappers that are still open.
`level_of_wrappers` turns it into the recursive descent that the grammar follows. With it, what is read
is derived (`derives_of_level`) and what is derived is read (`level_of_derives`), so that a text is read
just if the grammar derives its tokens, and as what they say (`parse_eq_some_iff`).
-/

namespace SchemaLift

namespace TypeExpression

open TypeSyntax (Derives NonNull Whole)

/-! ## The reader as a recursive descent -/

theorem wrappers_marked (outer : List Wrapper) {t : Token} (h : t.kind = .bang) (ts : List Token) :
    wrappers outer (t :: ts) = wrappers (.bang :: outer) ts := by
  rw [wrappers.eq_def]
  simp only [h, ↓reduceIte]

theorem wrappers_list (outer : List Wrapper) {t : Token} (h : t.kind = .lbracket)
    (ts : List Token) : wrappers outer (t :: ts) = wrappers (.list :: outer) ts := by
  rw [wrappers.eq_def]
  simp only [h, reduceCtorEq, ↓reduceIte]

theorem wrappers_typesList (outer : List Wrapper) {types opener : Token}
    (htypes : types.isWord "types" = true) (hopener : opener.kind = .lbracket) (ts : List Token) :
    wrappers outer (types :: opener :: ts) = wrappers (.list :: outer) ts := by
  rw [wrappers.eq_def]
  simp only [kind_of_isWord htypes, htypes, hopener, reduceCtorEq, ↓reduceIte]

/-- What stands at the head of a level: a mark, a list, or no wrapper. -/
theorem wrappers_cases (ts : List Token) :
    (∃ bang rest, ts = bang :: rest ∧ bang.kind = .bang) ∨
      (∃ opener rest, ts = opener :: rest ∧ opener.kind = .lbracket) ∨
      (∃ types opener rest, ts = types :: opener :: rest ∧ types.isWord "types" = true ∧
        opener.kind = .lbracket) ∨
      ∀ outer, wrappers outer ts = (outer, ts) := by
  cases ts with
  | nil => exact .inr (.inr (.inr fun _ => rfl))
  | cons t ts =>
    by_cases hbang : t.kind = .bang
    · exact .inl ⟨t, ts, rfl, hbang⟩
    by_cases hbracket : t.kind = .lbracket
    · exact .inr (.inl ⟨t, ts, rfl, hbracket⟩)
    refine .inr (.inr ?_)
    by_cases htypes : t.isWord "types" = true
    · cases ts with
      | nil =>
        refine .inr fun outer => ?_
        rw [wrappers.eq_def]
        simp only [hbang, hbracket, htypes, ↓reduceIte]
      | cons u us =>
        by_cases hopener : u.kind = .lbracket
        · exact .inl ⟨t, u, us, rfl, htypes, hopener⟩
        · refine .inr fun outer => ?_
          rw [wrappers.eq_def]
          simp only [hbang, hbracket, htypes, hopener, ↓reduceIte]
    · refine .inr fun outer => ?_
      rw [wrappers.eq_def]
      simp only [hbang, hbracket, htypes, ↓reduceIte, Bool.false_eq_true]

theorem wrappers_append (a b : List Wrapper) (ts : List Token) :
    wrappers (a ++ b) ts = ((wrappers a ts).1 ++ b, (wrappers a ts).2) := by
  induction hn : ts.length using Nat.strongRecOn generalizing a ts with
  | _ n ih =>
    rcases wrappers_cases ts with ⟨bang, rest, rfl, hbang⟩ | ⟨opener, rest, rfl, hopener⟩ |
      ⟨types, opener, rest, rfl, htypes, hopener⟩ | hstop
    · rw [wrappers_marked _ hbang, wrappers_marked _ hbang]
      exact ih _ (by simp [← hn]) (.bang :: a) rest rfl
    · rw [wrappers_list _ hopener, wrappers_list _ hopener]
      exact ih _ (by simp [← hn]) (.list :: a) rest rfl
    · rw [wrappers_typesList _ htypes hopener, wrappers_typesList _ htypes hopener]
      exact ih _ (by simp only [← hn, List.length_cons]; omega) (.list :: a) rest rfl
    · rw [hstop, hstop]

theorem closeWrappers_append (l : Level) (a b : List Wrapper) (ts : List Token) :
    closeWrappers l (a ++ b) ts =
      (closeWrappers l a ts).bind fun r => closeWrappers r.1 b r.2 := by
  induction a generalizing l ts with
  | nil => rfl
  | cons w a ih =>
    cases w with
    | bang => exact ih _ ts
    | list =>
      cases ts with
      | nil => rfl
      | cons t ts =>
        simp only [List.cons_append, closeWrappers]
        split
        · simp only [ih, Option.bind_assoc]
        · rfl

/-- With wrappers in front, what is inside is read first. -/
theorem level_of_wrappers {outer : List Wrapper} {ts ts' : List Token}
    (h : wrappers [] ts' = wrappers outer ts) :
    level ts' = (level ts).bind fun r => closeWrappers r.1 outer r.2 := by
  have hsplit := wrappers_append [] outer ts
  rw [List.nil_append] at hsplit
  unfold level
  rw [h, hsplit]
  simp only [Option.bind_eq_bind, closeWrappers_append, Option.bind_assoc]

theorem level_marked {t : Token} (ht : t.kind = .bang) (ts : List Token) :
    level (t :: ts) = (level ts).bind fun r => some ({ r.1 with nonNull := true }, r.2) :=
  level_of_wrappers (wrappers_marked [] ht ts)

/-- The level of a list whose element has been read, with the postfixes behind it. -/
def closeList (r : Level × List Token) : Option (Level × List Token) :=
  closeWrappers r.1 [.list] r.2

theorem closeList_cons {closer : Token} (h : closer.kind = .rbracket) (l : Level) (ts : List Token) :
    closeList (l, closer :: ts) =
      postfixes { l with listDepth := l.listDepth + 1, nonNull := false } ts := by
  rw [closeList, closeWrappers.eq_def]
  simp only [h, ↓reduceIte, closeWrappers, Prod.eta, Option.bind_fun_some]

theorem exists_of_closeList {r : Level × List Token} {found : Level × List Token}
    (h : closeList r = some found) : ∃ closer ts, r.2 = closer :: ts ∧ closer.kind = .rbracket ∧
      postfixes { r.1 with listDepth := r.1.listDepth + 1, nonNull := false } ts = some found := by
  obtain ⟨l, ts⟩ := r
  cases ts with
  | nil => cases h
  | cons closer ts =>
    by_cases hcloser : closer.kind = .rbracket
    · rw [closeList_cons hcloser] at h
      exact ⟨closer, ts, rfl, hcloser, h⟩
    · rw [closeList, closeWrappers.eq_def] at h
      simp only [hcloser, ↓reduceIte] at h
      cases h

theorem level_list {t : Token} (ht : t.kind = .lbracket) (ts : List Token) :
    level (t :: ts) = (level ts).bind closeList :=
  level_of_wrappers (wrappers_list [] ht ts)

theorem level_typesList {types opener : Token} (htypes : types.isWord "types" = true)
    (hopener : opener.kind = .lbracket) (ts : List Token) :
    level (types :: opener :: ts) = (level ts).bind closeList :=
  level_of_wrappers (wrappers_typesList [] htypes hopener ts)

/-- Without a wrapper in front there is a name. -/
theorem level_named {ts : List Token} (h : ∀ outer, wrappers outer ts = (outer, ts)) :
    level ts = (named ts).bind fun r => postfixes r.1 r.2 := by
  unfold level
  rw [h []]
  simp only [Option.bind_eq_bind, closeWrappers, Prod.eta, Option.bind_fun_some]

theorem isWord_eq_false {t : Token} (h : t.kind ≠ .identifier) (word : String) :
    t.isWord word = false :=
  Bool.eq_false_iff.2 fun hword => h (kind_of_isWord hword)

theorem level_constant {c : Token} (hc : c.kind = .constant) (ts : List Token) :
    level (c :: ts) = postfixes ⟨Scalar.canonical c.text, 0, false⟩ ts := by
  have hword : c.isWord "types" = false := isWord_eq_false (by rw [hc]; decide) _
  have hstop : ∀ outer, wrappers outer (c :: ts) = (outer, c :: ts) := by
    intro outer
    rw [wrappers.eq_def]
    simp only [hc, hword, reduceCtorEq, ↓reduceIte, Bool.false_eq_true]
  have hnamed : named (c :: ts) = some (⟨Scalar.canonical c.text, 0, false⟩, ts) := by
    cases ts <;> simp [named, hc, hword]
  rw [level_named hstop, hnamed, Option.bind_some]

theorem level_typesConstant {types dot c : Token} (htypes : types.isWord "types" = true)
    (hdot : dot.kind = .dot) (hc : c.kind = .constant) (ts : List Token) :
    level (types :: dot :: c :: ts) = postfixes ⟨Scalar.canonical c.text, 0, false⟩ ts := by
  have hkind := kind_of_isWord htypes
  have hstop : ∀ outer, wrappers outer (types :: dot :: c :: ts) =
      (outer, types :: dot :: c :: ts) := by
    intro outer
    rw [wrappers.eq_def]
    simp only [hkind, htypes, hdot, reduceCtorEq, ↓reduceIte]
  have hnamed : named (types :: dot :: c :: ts) =
      some (⟨Scalar.canonical c.text, 0, false⟩, ts) := by
    simp [named, htypes, hdot, hc]
  rw [level_named hstop, hnamed, Option.bind_some]

/-! ## Levels and the syntax they are read from -/

/-- The level that an expression is read as. -/
structure Level.Reads (l : Level) (e : TypeSyntax) : Prop where
  base : l.base = Scalar.canonical e.name ++ e.kept.flatMap ('.' :: ·)
  listDepth : l.listDepth = e.listDepth
  nonNull : l.nonNull = true ↔ e.NonNull

namespace Level.Reads

variable {l : Level} {e : TypeSyntax}

theorem marked (h : l.Reads e) : ({ l with nonNull := true } : Level).Reads (.marked e) :=
  ⟨h.base, h.listDepth, iff_of_true rfl (.marked e)⟩

theorem list (h : l.Reads e) :
    ({ l with listDepth := l.listDepth + 1, nonNull := false } : Level).Reads (.list e) :=
  ⟨h.base, congrArg (· + 1) h.listDepth,
    iff_of_false Bool.false_ne_true (TypeSyntax.not_nonNull_list e)⟩

theorem constant (name : Text) : (⟨Scalar.canonical name, 0, false⟩ : Level).Reads (.constant name) where
  base := (List.append_nil _).symm
  listDepth := rfl
  nonNull := iff_of_false Bool.false_ne_true (TypeSyntax.not_nonNull_constant name)

end Level.Reads

theorem postfixed_eq (l : Level) (method : Text) : postfixed l method =
    if method = TypeSyntax.nonNullMethod then some { l with nonNull := true }
    else if method = TypeSyntax.listMethod then
      some { l with listDepth := l.listDepth + 1, nonNull := false }
    else if l.listDepth = 0 then some { l with base := l.base ++ '.' :: method }
    else none := rfl

/-- One method call, if it may stand there. -/
theorem postfixed_reads {l : Level} {e : TypeSyntax} (h : l.Reads e) (method : Text) :
    (∃ l', postfixed l method = some l' ∧ l'.Reads (.call e method) ∧
        (method = TypeSyntax.nonNullMethod ∨ method = TypeSyntax.listMethod ∨ e.listDepth = 0)) ∨
      (postfixed l method = none ∧ method ≠ TypeSyntax.nonNullMethod ∧
        method ≠ TypeSyntax.listMethod ∧ e.listDepth ≠ 0) := by
  obtain ⟨hbase, hdepth, hmark⟩ := h
  rw [postfixed_eq]
  by_cases hnonNull : method = TypeSyntax.nonNullMethod
  · have hlist : method ≠ TypeSyntax.listMethod := hnonNull ▸ TypeSyntax.nonNullMethod_ne_listMethod
    rw [if_pos hnonNull]
    refine .inl ⟨_, rfl, ⟨?_, ?_, ?_⟩, .inl hnonNull⟩
    · rw [TypeSyntax.name, TypeSyntax.kept, if_pos (.inl hnonNull), ← hbase]
    · rw [TypeSyntax.listDepth, if_neg hlist, ← hdepth]
    · rw [TypeSyntax.nonNull_call_iff]
      exact iff_of_true rfl (.inl hnonNull)
  rw [if_neg hnonNull]
  by_cases hlist : method = TypeSyntax.listMethod
  · rw [if_pos hlist]
    refine .inl ⟨_, rfl, ⟨?_, ?_, ?_⟩, .inr (.inl hlist)⟩
    · rw [TypeSyntax.name, TypeSyntax.kept, if_pos (.inr hlist), ← hbase]
    · rw [TypeSyntax.listDepth, if_pos hlist, ← hdepth]
    · rw [TypeSyntax.nonNull_call_iff]
      refine iff_of_false Bool.false_ne_true (not_or.2 ⟨hnonNull, fun h => h.1 hlist⟩)
  rw [if_neg hlist]
  by_cases hzero : l.listDepth = 0
  · rw [if_pos hzero]
    refine .inl ⟨_, rfl, ⟨?_, ?_, ?_⟩, .inr (.inr (hdepth ▸ hzero))⟩
    · rw [TypeSyntax.name, TypeSyntax.kept, if_neg (not_or.2 ⟨hnonNull, hlist⟩), hbase]
      simp
    · rw [TypeSyntax.listDepth, if_neg hlist, ← hdepth]
    · rw [TypeSyntax.nonNull_call_iff, hmark]
      exact ⟨fun h => .inr ⟨hlist, h⟩, fun h => h.elim (fun h => absurd h hnonNull) And.right⟩
  · rw [if_neg hzero]
    exact .inr ⟨rfl, hnonNull, hlist, hdepth ▸ hzero⟩

/-! ## What is read is derived -/

theorem derives_of_postfixes {l l' : Level} {e : TypeSyntax} {done ts rest : List Token}
    (hl : l.Reads e) (he : Derives .operand e done) (h : postfixes l ts = some (l', rest)) :
    ∃ e' part, ts = part ++ rest ∧ Derives .operand e' (done ++ part) ∧ l'.Reads e' := by
  have hend : ∀ {l : Level} {e : TypeSyntax} {done ts : List Token}, l.Reads e →
      Derives .operand e done → some (l, ts) = some (l', rest) →
        ∃ e' part, ts = part ++ rest ∧ Derives .operand e' (done ++ part) ∧ l'.Reads e' := by
    intro l e done ts hl he h
    obtain ⟨rfl, rfl⟩ := Prod.mk.inj (Option.some.inj h)
    exact ⟨e, [], rfl, by rwa [List.append_nil], hl⟩
  fun_induction postfixes l ts generalizing e done with
  | case1 l => exact hend hl he h
  | case2 l t _ => cases h
  | case3 l t hdot m ts hm ih =>
    obtain ⟨next, hnext, hrest⟩ := Option.bind_eq_some_iff.1 h
    rcases postfixed_reads hl m.text with ⟨l₁, hl₁, hreads, hkeep⟩ | ⟨hnone, -⟩
    · obtain rfl := Option.some.inj (hnext.symm.trans hl₁)
      obtain ⟨e', part, rfl, he', hl'⟩ := ih next hreads (.call he hdot hm hkeep) hrest
      exact ⟨e', t :: m :: part, rfl, by simpa using he', hl'⟩
    · rw [hnone] at hnext
      cases hnext
  | case4 l t _ m ts _ => cases h
  | case5 l t ts _ => exact hend hl he h

theorem derives_of_named {l : Level} {ts rest : List Token} (h : named ts = some (l, rest)) :
    ∃ e part, ts = part ++ rest ∧ Derives .operand e part ∧ l.Reads e := by
  have hconstant : ∀ {c : Token} {ts : List Token}, (if c.kind = .constant then
        some ((⟨Scalar.canonical c.text, 0, false⟩ : Level), ts) else none) = some (l, rest) →
      c.kind = .constant ∧ ts = rest ∧ l.Reads (.constant c.text) := by
    intro c ts h
    split at h
    · rename_i hc
      obtain ⟨rfl, rfl⟩ := Prod.mk.inj (Option.some.inj h)
      exact ⟨hc, rfl, .constant c.text⟩
    · cases h
  unfold named at h
  simp only at h
  split at h
  · rename_i t u us
    split at h
    · rename_i htypes
      split at h
      · rename_i hdot
        cases us with
        | nil => cases h
        | cons c us =>
          obtain ⟨hc, rfl, hl⟩ := hconstant h
          exact ⟨_, [t, u, c], rfl, .typesConstant htypes hdot hc, hl⟩
      · cases h
    · obtain ⟨hc, rfl, hl⟩ := hconstant h
      exact ⟨_, [t], rfl, .constant hc, hl⟩
  · cases ts with
    | nil => cases h
    | cons c ts =>
      obtain ⟨hc, rfl, hl⟩ := hconstant h
      exact ⟨_, [c], rfl, .constant hc, hl⟩

/-- A level that is found is derived from the tokens before the rest. -/
theorem derives_of_level {ts rest : List Token} {l : Level} (h : level ts = some (l, rest)) :
    ∃ e part, ts = part ++ rest ∧ Derives .level e part ∧ l.Reads e := by
  induction hn : ts.length using Nat.strongRecOn generalizing ts rest l with
  | _ n ih =>
    -- an element in its brackets, read before the postfixes
    have hlist : ∀ {inside : List Token} (front : List Token), inside.length < n →
        (∀ {e part closer}, Derives .level e part → closer.kind = .rbracket →
          Derives .operand (.list e) (front ++ (part ++ [closer]))) →
        (level inside).bind closeList = some (l, rest) →
        ∃ e part, front ++ inside = part ++ rest ∧ Derives .level e part ∧ l.Reads e := by
      intro inside front hlt hderives h
      obtain ⟨⟨element, after⟩, helement, hclose⟩ := Option.bind_eq_some_iff.1 h
      obtain ⟨closer, ts₁, rfl, hcloser, hpost⟩ := exists_of_closeList hclose
      obtain ⟨e, part, rfl, he, hl⟩ := ih _ hlt helement rfl
      obtain ⟨e', part', rfl, he', hl'⟩ :=
        derives_of_postfixes hl.list (hderives he hcloser) hpost
      exact ⟨e', _, by simp, .operand he', hl'⟩
    rcases wrappers_cases ts with ⟨bang, inside, rfl, hbang⟩ | ⟨opener, inside, rfl, hopener⟩ |
      ⟨types, opener, inside, rfl, htypes, hopener⟩ | hnamed
    · rw [level_marked hbang] at h
      obtain ⟨⟨inner, after⟩, hinner, hmark⟩ := Option.bind_eq_some_iff.1 h
      obtain ⟨rfl, rfl⟩ := Prod.mk.inj (Option.some.inj hmark)
      obtain ⟨e, part, rfl, he, hl⟩ := ih _ (by simp [← hn]) hinner rfl
      exact ⟨.marked e, bang :: part, rfl, .marked hbang he, hl.marked⟩
    · rw [level_list hopener] at h
      exact hlist [opener] (by simp [← hn]) (fun he hc => .list hopener he hc) h
    · rw [level_typesList htypes hopener] at h
      exact hlist [types, opener] (by simp only [← hn, List.length_cons]; omega)
        (fun he hc => .typesList htypes hopener he hc) h
    · rw [level_named hnamed] at h
      obtain ⟨⟨base, after⟩, hbase, hpost⟩ := Option.bind_eq_some_iff.1 h
      obtain ⟨e, part, rfl, he, hl⟩ := derives_of_named hbase
      obtain ⟨e', part', rfl, he', hl'⟩ := derives_of_postfixes hl he hpost
      exact ⟨e', part ++ part', by simp, .operand he', hl'⟩

/-! ## What is derived is read -/

theorem postfixes_of_head {ts : List Token} (h : ts.head?.any (·.is .dot) = false) (l : Level) :
    postfixes l ts = some (l, ts) := by
  cases ts with
  | nil => rfl
  | cons t ts =>
    have hdot : t.kind ≠ .dot := fun hk => by simp [Token.is, hk] at h
    rw [postfixes.eq_def]
    simp only [hdot, ↓reduceIte]

/-- What follows a level when it is read: an operand may go on with postfixes. -/
def Follows : TypeSyntax.Nonterminal → Level → List Token → Option (Level × List Token)
  | .level, l, rest => some (l, rest)
  | .operand, l, rest => postfixes l rest

/-- Tokens that are derived are read, whatever follows; behind a level no postfix may follow. -/
theorem level_of_derives {part : TypeSyntax.Nonterminal} {e : TypeSyntax} {ts : List Token}
    (h : Derives part e ts) : ∃ l : Level, l.Reads e ∧ ∀ rest : List Token,
      (part = .level → rest.head?.any (·.is .dot) = false) →
        level (ts ++ rest) = Follows part l rest := by
  induction h with
  | marked hbang _ ih =>
    obtain ⟨l, hl, hread⟩ := ih
    refine ⟨_, hl.marked, fun rest hrest => ?_⟩
    rw [List.cons_append, level_marked hbang, hread rest hrest]
    rfl
  | operand _ ih =>
    obtain ⟨l, hl, hread⟩ := ih
    refine ⟨l, hl, fun rest hrest => ?_⟩
    rw [hread rest (by rintro ⟨⟩)]
    exact postfixes_of_head (hrest rfl) l
  | @list opener closer _ ts hopener _ hcloser ih =>
    obtain ⟨l, hl, hread⟩ := ih
    refine ⟨_, hl.list, fun rest _ => ?_⟩
    have hclose : (closer :: rest).head?.any (·.is .dot) = false := by simp [Token.is, hcloser]
    rw [List.cons_append, level_list hopener, List.append_assoc, List.singleton_append,
      hread _ fun _ => hclose]
    exact closeList_cons hcloser l rest
  | @typesList types opener closer _ ts htypes hopener _ hcloser ih =>
    obtain ⟨l, hl, hread⟩ := ih
    refine ⟨_, hl.list, fun rest _ => ?_⟩
    have hclose : (closer :: rest).head?.any (·.is .dot) = false := by simp [Token.is, hcloser]
    rw [List.cons_append, List.cons_append, level_typesList htypes hopener, List.append_assoc,
      List.singleton_append, hread _ fun _ => hclose]
    exact closeList_cons hcloser l rest
  | @constant c hc =>
    exact ⟨_, .constant c.text, fun rest _ => level_constant hc rest⟩
  | @typesConstant types dot c htypes hdot hc =>
    exact ⟨_, .constant c.text, fun rest _ => level_typesConstant htypes hdot hc rest⟩
  | @call e ts dot m _ hdot hm hkeep ih =>
    obtain ⟨l, hl, hread⟩ := ih
    rcases postfixed_reads hl m.text with ⟨l', hl', hreads, -⟩ | ⟨-, hnonNull, hlist, hzero⟩
    · refine ⟨l', hreads, fun rest _ => ?_⟩
      have hstep : postfixes l (dot :: m :: rest) = postfixes l' rest := by
        rw [postfixes.eq_def]
        simp only [hdot, hm, hl', ↓reduceIte, Option.bind_some]
      rw [List.append_assoc, hread _ (by rintro ⟨⟩)]
      exact hstep
    · rcases hkeep with h | h | h
      exacts [absurd h hnonNull, absurd h hlist, absurd h hzero]

/-! ## The whole expression -/

/-- The expression that a level says, with its mark and its proc. -/
def ofLevel (bang deferred : Bool) (l : Level) : TypeExpression :=
  ⟨l.base, !(bang || l.nonNull), l.listDepth, deferred⟩

theorem Level.Reads.means {l : Level} {e : TypeSyntax} (h : l.Reads e) (bang deferred : Bool) :
    Whole.Means ⟨bang, deferred, e⟩ (ofLevel bang deferred l) where
  base := h.base
  listDepth := h.listDepth
  deferred := rfl
  nullable := by
    rw [← h.nonNull]
    cases bang <;> simp [ofLevel]

/-- What is read behind the mark of the whole. -/
def body (bang : Bool) (ts : List Token) : Option TypeExpression :=
  match afterDeferral ts with
  | some ts =>
    if ts.head?.any (·.is .lbrace) then
      (level ts.tail).bind fun r =>
        if r.2.head?.any (·.is .rbrace) then
          if r.2.tail.isEmpty then some (ofLevel bang true r.1) else none
        else none
    else none
  | none => (level ts).bind fun r => if r.2.isEmpty then some (ofLevel bang false r.1) else none

theorem ofTokens_eq_body (ts : List Token) : ofTokens ts =
    if ts.head?.any (·.is .bang) then body true ts.tail else body false ts := by
  unfold ofTokens body
  cases ts.head?.any (·.is .bang) <;> rfl

/-- A word in front of the braces of a proc. -/
def Defers (word : Token) : Prop :=
  word.kind = .arrow ∨ word.isWord "lambda" = true ∨ word.isWord "proc" = true

theorem defers_of_afterDeferral {ts rest : List Token} (h : afterDeferral ts = some rest) :
    ∃ word, ts = word :: rest ∧ Defers word := by
  unfold afterDeferral at h
  split at h
  · rename_i word ts
    split at h
    · rename_i harrow
      obtain rfl := Option.some.inj h
      exact ⟨word, rfl, .inl harrow⟩
    split at h
    · rename_i hword
      obtain rfl := Option.some.inj h
      exact ⟨word, rfl, .inr (Bool.or_eq_true_iff.1 (Bool.and_eq_true_iff.1 hword).1)⟩
    · cases h
  · cases h

theorem afterDeferral_of_defers {word opener : Token} (hword : Defers word)
    (hopener : opener.kind = .lbrace) (ts : List Token) :
    afterDeferral (word :: opener :: ts) = some (opener :: ts) := by
  have hbrace : opener.is .lbrace = true := beq_iff_eq.2 hopener
  rw [afterDeferral]
  rcases hword with harrow | hword
  · rw [if_pos harrow]
  · rw [List.head?_cons, Option.any_some, hbrace, Bool.and_true,
      if_pos (Bool.or_eq_true_iff.2 hword), ite_self]

/-- What stands first in an expression. -/
theorem head_of_derives {part : TypeSyntax.Nonterminal} {e : TypeSyntax} {ts : List Token}
    (h : Derives part e ts) : ∃ t rest, ts = t :: rest ∧
      (t.kind = .lbracket ∨ t.kind = .constant ∨ t.isWord "types" = true ∨
        part = .level ∧ t.kind = .bang) := by
  induction h with
  | marked hbang => exact ⟨_, _, rfl, .inr (.inr (.inr ⟨rfl, hbang⟩))⟩
  | operand _ ih =>
    obtain ⟨t, rest, rfl, ht | ht | ht | ⟨⟨⟩, -⟩⟩ := ih
    exacts [⟨t, rest, rfl, .inl ht⟩, ⟨t, rest, rfl, .inr (.inl ht)⟩,
      ⟨t, rest, rfl, .inr (.inr (.inl ht))⟩]
  | list hopener => exact ⟨_, _, rfl, .inl hopener⟩
  | typesList htypes => exact ⟨_, _, rfl, .inr (.inr (.inl htypes))⟩
  | constant hc => exact ⟨_, _, rfl, .inr (.inl hc)⟩
  | typesConstant htypes => exact ⟨_, _, rfl, .inr (.inr (.inl htypes))⟩
  | call _ _ _ _ ih =>
    obtain ⟨t, rest, rfl, ht⟩ := ih
    exact ⟨t, _, rfl, ht⟩

theorem text_of_isWord {t : Token} {word : String} (h : t.isWord word = true) :
    t.text = word.toList :=
  beq_iff_eq.1 (Bool.and_eq_true_iff.1 h).2

theorem not_defers_of_kind {t : Token} (h : t.kind ≠ .arrow ∧ t.kind ≠ .identifier) : ¬Defers t := by
  rintro (harrow | hword | hword)
  · exact h.1 harrow
  · exact h.2 (kind_of_isWord hword)
  · exact h.2 (kind_of_isWord hword)

theorem not_defers_of_derives {part : TypeSyntax.Nonterminal} {e : TypeSyntax} {t : Token}
    {ts : List Token} (h : Derives part e (t :: ts)) : ¬Defers t := by
  obtain ⟨t, rest, heq, ht⟩ := head_of_derives h
  obtain rfl := (List.cons.inj heq).1
  rcases ht with hk | hk | htypes | ⟨-, hk⟩
  · exact not_defers_of_kind (by rw [hk]; decide)
  · exact not_defers_of_kind (by rw [hk]; decide)
  · rintro (harrow | hword | hword)
    · rw [kind_of_isWord htypes] at harrow
      cases harrow
    · exact absurd ((text_of_isWord htypes).symm.trans (text_of_isWord hword)) (by decide)
    · exact absurd ((text_of_isWord htypes).symm.trans (text_of_isWord hword)) (by decide)
  · exact not_defers_of_kind (by rw [hk]; decide)

theorem afterDeferral_of_derives {part : TypeSyntax.Nonterminal} {e : TypeSyntax} {ts : List Token}
    (h : Derives part e ts) : afterDeferral ts = none := by
  cases hdefer : afterDeferral ts with
  | none => rfl
  | some rest =>
    obtain ⟨word, rfl, hword⟩ := defers_of_afterDeferral hdefer
    exact absurd hword (not_defers_of_derives h)

theorem derives_of_body {bang : Bool} {ts : List Token} {t : TypeExpression}
    (h : body bang ts = some t) :
    ∃ deferred e, Whole.Body deferred e ts ∧ Whole.Means ⟨bang, deferred, e⟩ t := by
  unfold body at h
  split at h
  · rename_i inside hdefer
    obtain ⟨word, rfl, hword⟩ := defers_of_afterDeferral hdefer
    split at h
    · rename_i hopen
      obtain ⟨opener, hinside, hopener⟩ := cons_of_head?_any hopen
      obtain ⟨⟨l, rest⟩, hlevel, h⟩ := Option.bind_eq_some_iff.1 h
      simp only at h
      split at h
      · rename_i hclose
        obtain ⟨closer, hrest, hcloser⟩ := cons_of_head?_any hclose
        split at h
        · rename_i hempty
          obtain rfl := Option.some.inj h
          obtain ⟨e, part, htail, he, hl⟩ := derives_of_level hlevel
          rw [List.isEmpty_iff.1 hempty] at hrest
          refine ⟨true, e, ?_, hl.means bang true⟩
          rw [hinside, htail, hrest]
          exact .deferred hword hopener he hcloser
        · cases h
      · cases h
    · cases h
  · obtain ⟨⟨l, rest⟩, hlevel, h⟩ := Option.bind_eq_some_iff.1 h
    simp only at h
    split at h
    · rename_i hempty
      obtain rfl := Option.some.inj h
      obtain ⟨e, part, rfl, he, hl⟩ := derives_of_level hlevel
      refine ⟨false, e, ?_, hl.means bang false⟩
      rw [List.isEmpty_iff.1 hempty, List.append_nil]
      exact .plain he
    · cases h

theorem body_of_derives {bang deferred : Bool} {e : TypeSyntax} {ts : List Token}
    {t : TypeExpression} (h : Whole.Body deferred e ts) (ht : Whole.Means ⟨bang, deferred, e⟩ t) :
    body bang ts = some t := by
  cases h with
  | plain he =>
    obtain ⟨l, hl, hread⟩ := level_of_derives he
    have hlevel := hread [] fun _ => rfl
    rw [List.append_nil] at hlevel
    rw [body, afterDeferral_of_derives he]
    simp only [hlevel, Follows, Option.bind_some, List.isEmpty_nil, ↓reduceIte]
    exact congrArg some ((hl.means bang false).unique ht)
  | @deferred word opener closer e ts hword hopener he hcloser =>
    obtain ⟨l, hl, hread⟩ := level_of_derives he
    have hclose : closer.is .rbrace = true := beq_iff_eq.2 hcloser
    have hopen : opener.is .lbrace = true := beq_iff_eq.2 hopener
    have hlevel := hread [closer] fun _ => by simp [Token.is, hcloser]
    rw [body, afterDeferral_of_defers hword hopener]
    simp only [List.head?_cons, Option.any_some, hopen, List.tail_cons, hlevel, Follows, hclose,
      Option.bind_some, List.isEmpty_nil, ↓reduceIte]
    exact congrArg some ((hl.means bang true).unique ht)

/-- A mark before a level may be taken for the mark of the whole. -/
theorem derives_of_marked {w : Whole} {bang : Token} {ts : List Token} (hbang : bang.kind = .bang)
    (h : w.Derives (bang :: ts)) {t : TypeExpression} (ht : w.Means t) :
    ∃ deferred e, Whole.Body deferred e ts ∧ Whole.Means ⟨true, deferred, e⟩ t := by
  cases h with
  | @marked deferred e _ _ _ h => exact ⟨deferred, e, h, ht⟩
  | unmarked h =>
    cases h with
    | plain h =>
      cases h with
      | @marked _ e _ _ h =>
        exact ⟨false, e, .plain h, ht.congr rfl rfl rfl rfl (iff_of_true (.inl rfl) (.inr (.marked e)))⟩
      | operand h =>
        obtain ⟨t, rest, heq, hhead⟩ := head_of_derives h
        obtain rfl := (List.cons.inj heq).1
        rcases hhead with hk | hk | htypes | ⟨⟨⟩, -⟩
        · rw [hbang] at hk
          cases hk
        · rw [hbang] at hk
          cases hk
        · have hk := kind_of_isWord htypes
          rw [hbang] at hk
          cases hk
    | deferred hword =>
      exact absurd hword (not_defers_of_kind (by rw [hbang]; decide))

/-- The tokens that are read are those that the grammar derives. -/
theorem ofTokens_eq_some_iff {ts : List Token} {t : TypeExpression} :
    ofTokens ts = some t ↔ ∃ w : Whole, w.Derives ts ∧ w.Means t := by
  rw [ofTokens_eq_body]
  constructor
  · intro h
    split at h
    · rename_i hbang
      obtain ⟨bang, hts, hkind⟩ := cons_of_head?_any hbang
      obtain ⟨deferred, e, hbody, hmeans⟩ := derives_of_body h
      rw [hts]
      exact ⟨_, .marked hkind hbody, hmeans⟩
    · obtain ⟨deferred, e, hbody, hmeans⟩ := derives_of_body h
      exact ⟨_, .unmarked hbody, hmeans⟩
  · rintro ⟨w, hw, hmeans⟩
    split
    · rename_i hbang
      obtain ⟨bang, hts, hkind⟩ := cons_of_head?_any hbang
      rw [hts] at hw
      obtain ⟨deferred, e, hbody, hmeans⟩ := derives_of_marked hkind hw hmeans
      exact body_of_derives hbody hmeans
    · rename_i hbang
      cases hw with
      | unmarked h => exact body_of_derives h hmeans
      | marked hkind h => simp [Token.is, hkind] at hbang

/-- Two expressions that differ only in marks inside their lists say the same. -/
theorem ofTokens_eq_of_elementsUnmarked {ts ts' : List Token} {w w' : Whole} (h : w.Derives ts)
    (h' : w'.Derives ts') (hmarked : w.marked = w'.marked) (hdeferred : w.deferred = w'.deferred)
    (hlevel : w.level.elementsUnmarked = w'.level.elementsUnmarked) : ofTokens ts = ofTokens ts' := by
  obtain ⟨t, ht⟩ := w.exists_means
  obtain ⟨hname, hkept, hdepth, hmark⟩ := TypeSyntax.says_elementsUnmarked w.level
  obtain ⟨hname', hkept', hdepth', hmark'⟩ := TypeSyntax.says_elementsUnmarked w'.level
  have ht' : w'.Means t := by
    refine ht.congr ?_ ?_ ?_ hdeferred.symm ?_
    · rw [← hname', ← hlevel, hname]
    · rw [← hkept', ← hlevel, hkept]
    · rw [← hdepth', ← hlevel, hdepth]
    · rw [← hmark', ← hlevel, hmark, hmarked]
  rw [ofTokens_eq_some_iff.2 ⟨w, h, ht⟩, ofTokens_eq_some_iff.2 ⟨w', h', ht'⟩]

/-- A text is read as a type expression just if the grammar derives its code, and then as what is
written there. Marks inside lists do not count. -/
theorem parse_eq_some_iff (s : Text) :
    (∀ t, parse s = some t ↔ ∃ w : Whole, w.Derives (tokenizeCode s) ∧ w.Means t) ∧
      ∀ s' (w w' : Whole), w.Derives (tokenizeCode s) → w'.Derives (tokenizeCode s') →
        w.marked = w'.marked → w.deferred = w'.deferred →
          w.level.elementsUnmarked = w'.level.elementsUnmarked → parse s = parse s' :=
  ⟨fun _ => ofTokens_eq_some_iff, fun _ _ _ h h' => ofTokens_eq_of_elementsUnmarked h h'⟩

/-- A proc around a list, with a mark on the element and without one. -/
theorem parse_eq_some_iff_element :
    let s := "!->\x7btypes[!Int]\x7d".toList
    let s' := "!proc \x7b [Int] \x7d".toList
    ∃ w w' : Whole, w.Derives (tokenizeCode s) ∧ w'.Derives (tokenizeCode s') ∧
      w.level.elementsUnmarked = w'.level.elementsUnmarked ∧ parse s = parse s' ∧
        parse s = some ⟨"Integer".toList, false, 1, true⟩ := by
  intro s s'
  have hInt : Derives .level (.constant "Int".toList) [⟨[], .constant, "Int".toList⟩] :=
    .operand (.constant (c := ⟨[], .constant, "Int".toList⟩) rfl)
  have hmarked : Derives .level (.marked (.constant "Int".toList))
      [⟨[], .bang, ['!']⟩, ⟨[], .constant, "Int".toList⟩] := .marked rfl hInt
  have htypes : Derives .operand (.list (.marked (.constant "Int".toList)))
      (⟨[], .identifier, "types".toList⟩ :: ⟨[], .lbracket, ['[']⟩ ::
        ([⟨[], .bang, ['!']⟩, ⟨[], .constant, "Int".toList⟩] ++ [⟨[], .rbracket, [']']⟩])) :=
    .typesList rfl rfl hmarked rfl
  have hlist : Derives .operand (.list (.constant "Int".toList)) (⟨[' '], .lbracket, ['[']⟩ ::
      ([⟨[], .constant, "Int".toList⟩] ++ [⟨[], .rbracket, [']']⟩])) := .list rfl hInt rfl
  have hs : tokenizeCode s = ⟨[], .bang, ['!']⟩ :: ⟨[], .arrow, "->".toList⟩ ::
      ⟨[], .lbrace, ['\x7b']⟩ :: ([⟨[], .identifier, "types".toList⟩, ⟨[], .lbracket, ['[']⟩,
        ⟨[], .bang, ['!']⟩, ⟨[], .constant, "Int".toList⟩, ⟨[], .rbracket, [']']⟩] ++
        [⟨[], .rbrace, ['\x7d']⟩]) := by decide
  have hs' : tokenizeCode s' = ⟨[], .bang, ['!']⟩ :: ⟨[], .identifier, "proc".toList⟩ ::
      ⟨[' '], .lbrace, ['\x7b']⟩ :: ([⟨[' '], .lbracket, ['[']⟩, ⟨[], .constant, "Int".toList⟩,
        ⟨[], .rbracket, [']']⟩] ++ [⟨[' '], .rbrace, ['\x7d']⟩]) := by decide
  have hw : Whole.Derives ⟨true, true, .list (.marked (.constant "Int".toList))⟩ (tokenizeCode s) := by
    rw [hs]
    exact .marked rfl (.deferred (.inl rfl) rfl (.operand htypes) rfl)
  have hw' : Whole.Derives ⟨true, true, .list (.constant "Int".toList)⟩ (tokenizeCode s') := by
    rw [hs']
    exact .marked rfl (.deferred (.inr (.inr rfl)) rfl (.operand hlist) rfl)
  have hmeans : Whole.Means ⟨true, true, .list (.marked (.constant "Int".toList))⟩
      ⟨"Integer".toList, false, 1, true⟩ :=
    ⟨by decide, rfl, rfl, iff_of_true rfl (.inl rfl)⟩
  exact ⟨_, _, hw, hw', rfl, (parse_eq_some_iff s).2 s' _ _ hw hw' rfl rfl rfl,
    ((parse_eq_some_iff s).1 _).2 ⟨_, hw, hmeans⟩⟩

end TypeExpression

end SchemaLift
