import SchemaLift.Declaration.Flatten
import SchemaLift.Proofs.Declaration.Reading

/-!
# What the revisions do with a declaration in its place

A lawful revision always gives an edit for a declaration that lies in the text, looks at nothing but
the lines of the declaration and the one below, and replaces the declaration by its own lines put
together anew. Flattening, renaming a property and moving a resolver are lawful
(`lawful_flatten`, `lawful_renameProperty`, `lawful_moveResolver`).
-/

namespace SchemaLift.Declaration

/-- The lines that may replace a declaration: it is put together anew under a header that can be
read as such, alone or with a method of its own name below it. -/
inductive Rebuilds (d : Declaration) (ls : List Line) : List Line → Prop
  | plain {s : Signature} (hs : s.Headed) (removed : Removed) :
      Rebuilds d ls (d.rebuilt ls s removed [])
  | method {s : Signature} (hs : s.Headed) (removed : Removed) {name header : Text}
      (hname : d.signature.name.bind Name.declared? = some name)
      (hheader : header = name ∨ header = name ++ "(**args)".toList) (body : Text) :
      Rebuilds d ls (d.rebuilt ls s removed
        (ProcLiteral.methodLines d.signature.indent header (ProcLiteral.bodyLines body)))

/-- An edit that keeps a declaration or rebuilds it. -/
def Admits (d : Declaration) (ls : List Line) (edit : Edit) : Prop :=
  ∀ new ∈ edit.replacement, d.Rebuilds ls new

/-- A revision that reads and replaces only what belongs to a declaration. -/
structure Lawful (revise : Revision) : Prop where
  total : ∀ {d : Declaration} {ls : List Line}, d.Placed ls.length →
    ∃ edit, revise d ls = .ok edit ∧ d.Admits ls edit
  congr : ∀ {d : Declaration} {ls ls' : List Line}, d.Placed ls.length →
    Agree (d.stop + 1) ls ls' → revise d ls' = revise d ls

/-- A method is made of a proc: its body is adapted. -/
theorem exists_proc_of_resolverMethod {method resolver indent : Text} {declared : Bool} {trailer : List Line}
    (h : resolverMethod method resolver indent declared = .ok trailer) :
    ∃ p out header, ProcLiteral.parse resolver = .ok p ∧ Accessor.adaptBody p.parameters p.body = .ok out ∧
      (header = method ∨ header = method ++ "(**args)".toList) ∧
      trailer = ProcLiteral.methodLines indent header (ProcLiteral.bodyLines out.text) := by
  obtain ⟨p, hp, h⟩ := bind_eq_ok_iff.1 h
  obtain ⟨out, hout, heq⟩ := bind_eq_ok_iff.1 h
  cases heq
  refine ⟨p, out, _, hp, hout, ?_, rfl⟩
  split
  · exact .inr rfl
  · exact .inl rfl

theorem resolverMethod_ok {method resolver indent : Text} {declared : Bool} {trailer : List Line}
    (h : resolverMethod method resolver indent declared = .ok trailer) :
    ∃ header body, (header = method ∨ header = method ++ "(**args)".toList) ∧
      trailer = ProcLiteral.methodLines indent header (ProcLiteral.bodyLines body) := by
  obtain ⟨_, out, header, -, -, hheader, htrailer⟩ := exists_proc_of_resolverMethod h
  exact ⟨header, out.text, hheader, htrailer⟩

/-! ## Headers -/

section

variable {s : Signature} (h : s.Headed)
include h

theorem headed_renameKeyword (old new : Text) : (s.renameKeyword old new).Headed :=
  ⟨h.indent, h.keyword⟩

theorem headed_pushKeyword (key value : Text) : (s.pushKeyword key value).Headed :=
  ⟨h.indent, h.keyword⟩

theorem headed_removeKeyword (key : Text) : (s.removeKeyword key).Headed := ⟨h.indent, h.keyword⟩

theorem headed_comments (comments : List Text) :
    ({ s with comments := comments } : Signature).Headed := ⟨h.indent, h.keyword⟩

theorem headed_withoutResolver (pulled : Pulled) : (withoutResolver s pulled).1.Headed := by
  unfold withoutResolver
  split
  · exact headed_comments h _
  · exact headed_removeKeyword h _

omit h in
theorem identifier_flatKeyword (k : DeclarationKind) : Scan.Identifier k.flatKeyword.toList := by
  unfold DeclarationKind.flatKeyword
  split
  · exact .plain (by decide) (by decide) (List.all_eq_true.1 (by decide)) (by decide)
  · exact .plain (by decide) (by decide) (List.all_eq_true.1 (by decide)) (by decide)

theorem headed_flatSignature (kind : DeclarationKind) (name : Text) (pulled : Pulled)
    (t : TypeExpression) : (flatSignature kind s name pulled t).Headed :=
  ⟨h.indent, identifier_flatKeyword kind⟩

end

/-! ## Edits -/

section

variable {d : Declaration} {ls : List Line}

theorem admits_none (skipped : List SkipReason) : d.Admits ls ⟨none, skipped⟩ := by
  intro new hnew
  cases hnew

theorem admits_some {new : List Line} (h : d.Rebuilds ls new) (skipped : List SkipReason) :
    d.Admits ls ⟨some new, skipped⟩ := by
  intro new' hnew'
  obtain rfl := Option.some.inj hnew'
  exact h

end

/-! ## Renaming a property -/

theorem lawful_renameProperty : Lawful renameProperty where
  total := by
    intro d ls h
    unfold renameProperty
    extract_lets property method renamed signature keepOrReplace
    have hs : signature.Headed := headed_renameKeyword h.signature _ _
    have hkeep : ∃ edit, keepOrReplace = .ok edit ∧ d.Admits ls edit := by
      unfold keepOrReplace
      split
      · rw [h.reassemble_eq]
        exact ⟨_, rfl, admits_some (.plain hs []) []⟩
      · exact ⟨_, rfl, admits_none []⟩
    split
    · exact hkeep
    · rw [h.findStatement_eq]
      simp only [bind, Except.bind]
      split
      · exact hkeep
      · rename_i r s _
        rw [h.reassemble_eq]
        have hnew := headed_comments (headed_pushKeyword hs method s.value)
          ((signature.pushKeyword method s.value).comments ++ s.comments)
        exact ⟨_, rfl, admits_some (.plain hnew [r]) []⟩
  congr := by
    intro d ls ls' h hag
    have h' := h.of_agree hag
    unfold renameProperty
    simp only [h.reassemble_eq, h'.reassemble_eq, h.findStatement_eq, h'.findStatement_eq,
      hag.rebuilt_eq, h.readStatements_congr hag]

/-! ## Moving a resolver -/

theorem lawful_moveResolver : Lawful moveResolver where
  total := by
    intro d ls h
    unfold moveResolver
    rw [h.findStatement_eq]
    simp only [bind, Except.bind, pure, Except.pure, h.retains_eq, h.reassemble_eq]
    split
    · exact ⟨_, rfl, admits_none []⟩
    split
    · exact ⟨_, rfl, admits_none _⟩
    rename_i name hname
    split
    · exact ⟨_, rfl, admits_none _⟩
    rename_i trailer htrailer
    obtain ⟨header, body, hheader, rfl⟩ := resolverMethod_ok htrailer
    split
    · exact ⟨_, rfl, admits_some (.method (headed_comments h.signature _) _ hname hheader body) _⟩
    · exact ⟨_, rfl, admits_some
        (.method (headed_removeKeyword h.signature _) _ hname hheader body) _⟩
  congr := by
    intro d ls ls' h hag
    have h' := h.of_agree hag
    unfold moveResolver
    simp only [h.reassemble_eq, h'.reassemble_eq, h.findStatement_eq, h'.findStatement_eq,
      h.retains_eq, h'.retains_eq, hag.rebuilt_eq, h.readStatements_congr hag]

/-! ## Flattening -/

theorem total_flattenTyped (kind : DeclarationKind) {d : Declaration} {ls : List Line}
    (h : d.Placed ls.length) {name : Text} (hname : d.signature.name = some name) (pulled : Pulled)
    (t : TypeExpression) :
    ∃ edit, flattenTyped kind d ls name pulled t = .ok edit ∧ d.Admits ls edit := by
  have hflat := headed_flatSignature h.signature kind name pulled t
  unfold flattenTyped
  simp only [bind, Except.bind, pure, Except.pure, h.retains_eq, h.reassemble_eq]
  split
  · exact ⟨_, rfl, admits_some (.plain hflat _) []⟩
  cases hmethod : Name.declared? name with
  | none => exact ⟨_, rfl, admits_some (.plain hflat _) _⟩
  | some method =>
    have hbind : d.signature.name.bind Name.declared? = some method := by
      rw [hname, Option.bind_some, hmethod]
    simp only
    split
    · rename_i trailer htrailer
      obtain ⟨header, body, hheader, rfl⟩ := resolverMethod_ok htrailer
      exact ⟨_, rfl, admits_some
        (.method (headed_withoutResolver hflat pulled) _ hbind hheader body) []⟩
    · exact ⟨_, rfl, admits_some (.plain hflat _) _⟩

theorem lawful_flatten (kind : DeclarationKind) : Lawful (flatten kind) where
  total := by
    intro d ls h
    unfold flatten
    extract_lets s
    split
    · exact ⟨_, rfl, admits_none []⟩
    split
    · exact ⟨_, rfl, admits_none []⟩
    rename_i name hname
    rw [h.statements_eq]
    simp only [bind, Except.bind, pure, Except.pure]
    split
    · split
      · exact ⟨_, rfl, admits_none []⟩
      · exact ⟨_, rfl, admits_none _⟩
    split
    · exact ⟨_, rfl, admits_none _⟩
    · exact total_flattenTyped kind h hname _ _
  congr := by
    intro d ls ls' h hag
    have h' := h.of_agree hag
    unfold flatten flattenTyped
    simp only [h.reassemble_eq, h'.reassemble_eq, h.statements_eq, h'.statements_eq,
      h.retains_eq, h'.retains_eq, hag.rebuilt_eq, h.readStatements_congr hag]

end SchemaLift.Declaration
