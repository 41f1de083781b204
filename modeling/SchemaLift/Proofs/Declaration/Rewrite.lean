import SchemaLift.Proofs.Call.Keys
import SchemaLift.Proofs.Declaration.AtOnce

/-!
# What comes in place of a declaration

A rule that changes a declaration puts it together anew from a header, the lines that leave its block
and the lines of a method below. `rewrite?` says which these are, for each of the six rules, and
`replacement_eq` that the rules give just that.
-/

namespace SchemaLift.Declaration

/-- The parts of which a declaration is put together anew. -/
structure Rewrite where
  header : Signature
  removed : Removed
  trailer : List Line

/-- The lines that come in place of a declaration. -/
def Rewrite.lines (r : Rewrite) (d : Declaration) (ls : List Line) : List Line :=
  d.rebuilt ls r.header r.removed r.trailer

section

variable (d : Declaration) (ls : List Line)

/-- Whether arguments are declared in the block by statements that stay. -/
def declaresArguments (removed : Removed) : Bool :=
  (d.readStatements ls).any fun entry =>
    entry.2.keyword == "argument".toList && !removed.covers entry.1.first

/-- The first statement of the block that has a value and one of the keywords. -/
def statement? (keywords : List String) : Option (LineRange × Statement) :=
  (d.readStatements ls).find? fun entry =>
    keywords.any (fun k => k.toList == entry.2.keyword) && !entry.2.value.isEmpty

/-- The method for a resolver, if there is one and a method can be made of it. -/
def methodBelow (name : Option Text) (resolver : Option Text) (indent : Text) (declared : Bool) :
    Option (List Line) := do
  let method ← name.bind Name.declared?
  let resolver ← resolver
  (resolverMethod method resolver indent declared).toOption

/-! ## Flattening -/

/-- What the block contributes to the header. -/
def pulled (kind : DeclarationKind) : Pulled :=
  .ofStatements kind (headerType d.signature).isSome (d.signature.positional.any isStringLiteral)
    (d.readStatements ls)

/-- The flat declaration of a type: its resolver goes if it becomes a method. -/
def flatRewrite (kind : DeclarationKind) (name : Text) (t : TypeExpression) : Rewrite :=
  let pulled := d.pulled ls kind
  let flat := flatSignature kind d.signature name pulled t
  match methodBelow (some name) (resolverText kind flat pulled) flat.indent
      (d.declaresArguments ls pulled.removed) with
  | none => ⟨flat, pulled.removed, []⟩
  | some trailer => ⟨(withoutResolver flat pulled).1, (withoutResolver flat pulled).2, trailer⟩

/-- Flattening applies to a named declaration of a known type that does not tell nullability yet. -/
def flatRewrite? (kind : DeclarationKind) : Option Rewrite :=
  if d.signature.hasKeyword kind.nullabilityKey.toList then none
  else do
    let name ← d.signature.name
    let text ← (headerType d.signature).or (d.pulled ls kind).type
    let t ← TypeExpression.parse text
    return d.flatRewrite ls kind name t

/-! ## Renaming a property and moving a resolver -/

/-- A property is renamed; else a statement that names the method becomes an argument, unless there
is one already. -/
def renameRewrite? : Option Rewrite :=
  let signature := d.signature.renameKeyword "property".toList "method".toList
  if d.signature.hasKeyword "property".toList then some ⟨signature, [], []⟩
  else if d.signature.hasKeyword "method".toList then none
  else (d.statement? ls methodWords).map fun entry =>
    ⟨{ signature.pushKeyword "method".toList entry.2.value with
        comments := signature.comments ++ entry.2.comments }, [entry.1], []⟩

/-- The resolver that can be moved: that of the block before the argument. -/
def resolver? : Option Text :=
  match d.statement? ls ["resolve"] with
  | some (_, s) => some s.value
  | none => d.signature.keyword? "resolve".toList

def moveRewrite? : Option Rewrite :=
  (methodBelow d.signature.name (d.resolver? ls) d.signature.indent
    (d.declaresArguments ls [])).map fun trailer =>
      match d.statement? ls ["resolve"] with
      | some (r, s) =>
        ⟨{ d.signature with comments := d.signature.comments ++ s.comments }, [r], trailer⟩
      | none => ⟨d.signature.removeKeyword "resolve".toList, [], trailer⟩

/-- What a rule makes of a declaration, if it gives it other lines. -/
def rewrite? : Rule → Option Rewrite
  | .field => d.flatRewrite? ls .field
  | .argument => d.flatRewrite? ls .argument
  | .inputField => d.flatRewrite? ls .inputField
  | .connection => d.flatRewrite? ls .connection
  | .propertyToMethod => d.renameRewrite? ls
  | .resolveProc => d.moveRewrite? ls
  | _ => none

@[simp] theorem rewrite?_rule (kind : DeclarationKind) :
    d.rewrite? ls kind.rule = d.flatRewrite? ls kind := by
  cases kind <;> rfl

end

section

variable {d : Declaration} {ls : List Line} {r : Rewrite}

theorem exists_of_flatRewrite? {kind : DeclarationKind} (h : d.flatRewrite? ls kind = some r) :
    ∃ name text t, d.signature.name = some name ∧
      (headerType d.signature).or (d.pulled ls kind).type = some text ∧
      TypeExpression.parse text = some t ∧ d.flatRewrite ls kind name t = r := by
  unfold flatRewrite? at h
  split at h
  · cases h
  simp only [Option.bind_eq_bind, Option.bind_eq_some_iff] at h
  obtain ⟨name, hname, text, htext, t, ht, h⟩ := h
  exact ⟨name, text, t, hname, htext, ht, Option.some.inj h⟩

/-- A property among the arguments is renamed. Where there is none, a statement joins them. -/
theorem renameRewrite?_cases (h : d.renameRewrite? ls = some r) :
    (d.signature.hasKeyword "property".toList = true ∧
      r = ⟨d.signature.renameKeyword "property".toList "method".toList, [], []⟩) ∨
    (d.signature.hasKeyword "property".toList = false ∧
      ∃ entry, d.statement? ls methodWords = some entry ∧
        r = ⟨{ (d.signature.renameKeyword "property".toList "method".toList).pushKeyword
            "method".toList entry.2.value with
          comments := d.signature.comments ++ entry.2.comments }, [entry.1], []⟩) := by
  unfold renameRewrite? at h
  simp only at h
  split at h
  · rename_i hproperty
    exact .inl ⟨hproperty, (Option.some.inj h).symm⟩
  rename_i hproperty
  split at h
  · cases h
  obtain ⟨entry, hentry, rfl⟩ := Option.map_eq_some_iff.1 h
  exact .inr ⟨Bool.eq_false_iff.2 hproperty, entry, hentry, rfl⟩

end

/-! ## What the parts can be -/

section

variable (d : Declaration) (ls : List Line)

/-- All that the rules can make of a declaration. -/
inductive Rewrite.Made : Rewrite → Prop
  /-- Flat, with the resolver left where it is. -/
  | flat {kind : DeclarationKind} {name text : Text} {t : TypeExpression}
      (hname : d.signature.name = some name)
      (htext : (headerType d.signature).or (d.pulled ls kind).type = some text)
      (ht : TypeExpression.parse text = some t) :
      Made ⟨flatSignature kind d.signature name (d.pulled ls kind) t, (d.pulled ls kind).removed, []⟩
  /-- Flat, with the statement of the resolver taken out. -/
  | flatStatement {kind : DeclarationKind} {name text : Text} {t : TypeExpression}
      {entry : LineRange × Statement} {declared : Bool} {trailer : List Line}
      (hname : d.signature.name = some name)
      (htext : (headerType d.signature).or (d.pulled ls kind).type = some text)
      (ht : TypeExpression.parse text = some t) (hentry : (d.pulled ls kind).resolver = some entry)
      (hmethod : methodBelow d.signature.name (some entry.2.value) d.signature.indent declared =
        some trailer) :
      Made ⟨{ flatSignature kind d.signature name (d.pulled ls kind) t with
        comments := d.signature.comments ++ (d.pulled ls kind).comments ++ entry.2.comments },
        (d.pulled ls kind).removed ++ [entry.1], trailer⟩
  /-- Flat, with the argument of the resolver taken out. -/
  | flatArgument {kind : DeclarationKind} {name text : Text} {t : TypeExpression} {resolver : Text}
      {declared : Bool} {trailer : List Line} (hfield : kind.isField = true)
      (hname : d.signature.name = some name)
      (htext : (headerType d.signature).or (d.pulled ls kind).type = some text)
      (ht : TypeExpression.parse text = some t) (hnone : (d.pulled ls kind).resolver = none)
      (hresolver : (flatSignature kind d.signature name (d.pulled ls kind) t).keyword?
        "resolve".toList = some resolver)
      (hmethod : methodBelow d.signature.name (some resolver) d.signature.indent declared =
        some trailer) :
      Made ⟨(flatSignature kind d.signature name (d.pulled ls kind) t).removeKeyword "resolve".toList,
        (d.pulled ls kind).removed, trailer⟩
  | renamed : Made ⟨d.signature.renameKeyword "property".toList "method".toList, [], []⟩
  | pushed {entry : LineRange × Statement} (hentry : d.statement? ls methodWords = some entry) :
      Made ⟨{ (d.signature.renameKeyword "property".toList "method".toList).pushKeyword
          "method".toList entry.2.value with
        comments := d.signature.comments ++ entry.2.comments }, [entry.1], []⟩
  | movedStatement {entry : LineRange × Statement} {declared : Bool} {trailer : List Line}
      (hentry : d.statement? ls ["resolve"] = some entry)
      (hmethod : methodBelow d.signature.name (some entry.2.value) d.signature.indent declared =
        some trailer) :
      Made ⟨{ d.signature with comments := d.signature.comments ++ entry.2.comments }, [entry.1],
        trailer⟩
  | movedArgument {resolver : Text} {declared : Bool} {trailer : List Line}
      (hnone : d.statement? ls ["resolve"] = none)
      (hresolver : d.signature.keyword? "resolve".toList = some resolver)
      (hmethod : methodBelow d.signature.name (some resolver) d.signature.indent declared =
        some trailer) :
      Made ⟨d.signature.removeKeyword "resolve".toList, [], trailer⟩

end

section

variable {d : Declaration} {ls : List Line} {r : Rewrite}

/-- A method is made of a resolver. -/
theorem exists_of_methodBelow {name resolver : Option Text} {indent : Text} {declared : Bool}
    {trailer : List Line} (h : methodBelow name resolver indent declared = some trailer) :
    ∃ text, resolver = some text := by
  obtain ⟨method, -, h⟩ := Option.bind_eq_some_iff.1 h
  obtain ⟨text, htext, -⟩ := Option.bind_eq_some_iff.1 h
  exact ⟨text, htext⟩

theorem made_flatRewrite? {kind : DeclarationKind} (h : d.flatRewrite? ls kind = some r) :
    Rewrite.Made d ls r := by
  obtain ⟨name, text, t, hname, htext, ht, rfl⟩ := exists_of_flatRewrite? h
  unfold flatRewrite
  simp only
  split
  · exact .flat hname htext ht
  rename_i trailer hmethod
  rw [← hname] at hmethod
  unfold resolverText at hmethod
  unfold withoutResolver
  cases hresolver : (d.pulled ls kind).resolver with
  | some entry =>
    simp only [hresolver] at hmethod
    exact .flatStatement hname htext ht hresolver hmethod
  | none =>
    simp only [hresolver] at hmethod
    obtain ⟨resolver, hkeyword⟩ := exists_of_methodBelow hmethod
    rw [hkeyword] at hmethod
    split at hkeyword
    · rename_i hfield
      exact .flatArgument hfield hname htext ht hresolver hkeyword hmethod
    · cases hkeyword

theorem made_renameRewrite? (h : d.renameRewrite? ls = some r) : Rewrite.Made d ls r := by
  rcases renameRewrite?_cases h with ⟨-, rfl⟩ | ⟨-, entry, hentry, rfl⟩
  · exact .renamed
  · exact .pushed hentry

theorem made_moveRewrite? (h : d.moveRewrite? ls = some r) : Rewrite.Made d ls r := by
  unfold moveRewrite? at h
  obtain ⟨trailer, hmethod, rfl⟩ := Option.map_eq_some_iff.1 h
  unfold resolver? at hmethod
  cases hentry : d.statement? ls ["resolve"] with
  | some entry =>
    rw [hentry] at hmethod
    exact .movedStatement hentry hmethod
  | none =>
    rw [hentry] at hmethod
    obtain ⟨resolver, hresolver⟩ := exists_of_methodBelow hmethod
    rw [hresolver] at hmethod
    exact .movedArgument hentry hresolver hmethod

/-- **What a rule makes of a declaration.** -/
theorem made_of_rewrite? {rule : Rule} (h : d.rewrite? ls rule = some r) : Rewrite.Made d ls r := by
  cases rule with
  | field | argument | inputField | connection => exact made_flatRewrite? h
  | propertyToMethod => exact made_renameRewrite? h
  | resolveProc => exact made_moveRewrite? h
  | typeDefinition | name | implements | possibleTypes | classProc => cases h

end

/-! ## The rules give these parts -/

section

variable {kind : DeclarationKind} {d : Declaration} {ls : List Line} {edit : Edit}

theorem methodBelow_eq {name resolver : Text} {method : Text} (hmethod : Name.declared? name = some method)
    (indent : Text) (declared : Bool) : methodBelow (some name) (some resolver) indent declared =
      (resolverMethod method resolver indent declared).toOption := by
  simp only [methodBelow, Option.bind_eq_bind, Option.bind_some, hmethod]

theorem replacement_flattenTyped (h : d.Placed ls.length) {name : Text} {t : TypeExpression}
    (hedit : flattenTyped kind d ls name (d.pulled ls kind) t = .ok edit) :
    edit.replacement = some ((d.flatRewrite ls kind name t).lines d ls) := by
  unfold flattenTyped at hedit
  unfold flatRewrite
  simp only [bind, Except.bind, pure, Except.pure, h.retains_eq, h.reassemble_eq] at hedit ⊢
  split at hedit
  · rename_i hresolver
    obtain rfl := Except.ok.inj hedit
    simp only [hresolver, methodBelow, Option.bind_eq_bind, Option.bind_none, Option.bind_fun_none]
    rfl
  rename_i resolver hresolver
  rw [hresolver]
  cases hmethod : Name.declared? name with
  | none =>
    simp only [hmethod] at hedit
    obtain rfl := Except.ok.inj hedit
    simp only [methodBelow, Option.bind_eq_bind, Option.bind_some, hmethod, Option.bind_none]
    rfl
  | some method =>
    rw [methodBelow_eq hmethod]
    simp only [hmethod] at hedit
    unfold declaresArguments
    split at hedit
    · rename_i trailer htrailer
      obtain rfl := Except.ok.inj hedit
      rw [htrailer]
      rfl
    · rename_i reason hreason
      obtain rfl := Except.ok.inj hedit
      rw [hreason]
      rfl

theorem replacement_flatten (h : d.Placed ls.length) (hedit : flatten kind d ls = .ok edit) :
    edit.replacement = (d.flatRewrite? ls kind).map (·.lines d ls) := by
  unfold flatten at hedit
  unfold flatRewrite?
  simp only at hedit
  split at hedit
  · rename_i hflat
    obtain rfl := Except.ok.inj hedit
    rw [if_pos hflat]
    rfl
  rename_i hflat
  rw [if_neg hflat]
  cases hname : d.signature.name with
  | none =>
    rw [hname] at hedit
    obtain rfl := Except.ok.inj hedit
    rfl
  | some name =>
    rw [hname, h.statements_eq] at hedit
    simp only [bind, Except.bind, pure, Except.pure, Option.bind_some] at hedit ⊢
    unfold pulled
    split at hedit
    · rename_i htext
      rw [htext]
      split at hedit <;> (obtain rfl := Except.ok.inj hedit; rfl)
    rename_i text htext
    rw [htext]
    simp only [Option.bind_some]
    split at hedit
    · rename_i ht
      obtain rfl := Except.ok.inj hedit
      rw [ht]
      rfl
    · rename_i t ht
      rw [ht]
      exact replacement_flattenTyped h hedit

/-- After a renaming the new key is there if the old one or the new one was. -/
theorem hasKeyword_renameKeyword (s : Signature) {old new : Text} :
    (s.renameKeyword old new).hasKeyword new = (s.hasKeyword old || s.hasKeyword new) := by
  rw [Bool.eq_iff_iff, Bool.or_eq_true, Signature.hasKeyword_iff, Signature.hasKeyword_iff,
    Signature.hasKeyword_iff, Signature.keys_renameKeyword]
  by_cases hold : old ∈ s.keys
  · rw [(perm_replace hold).mem_iff]
    exact ⟨fun _ => .inl hold, fun _ => List.mem_cons_self⟩
  · rw [List.replace_of_not_mem hold]
    exact ⟨.inr, fun h => h.resolve_left hold⟩

theorem replacement_renameProperty (h : d.Placed ls.length)
    (hedit : renameProperty d ls = .ok edit) :
    edit.replacement = (d.renameRewrite? ls).map (·.lines d ls) := by
  unfold renameProperty at hedit
  simp only [hasKeyword_renameKeyword, h.findStatement_eq, h.reassemble_eq] at hedit
  unfold renameRewrite?
  by_cases hproperty : d.signature.hasKeyword "property".toList = true
  · simp only [hproperty, Bool.true_or, ↓reduceIte] at hedit ⊢
    obtain rfl := Except.ok.inj hedit
    rfl
  by_cases hmethod : d.signature.hasKeyword "method".toList = true
  · simp only [hproperty, hmethod, Bool.or_true, ↓reduceIte, Bool.false_eq_true] at hedit ⊢
    obtain rfl := Except.ok.inj hedit
    rfl
  simp only [hproperty, hmethod, Bool.or_self, ↓reduceIte, Bool.false_eq_true] at hedit ⊢
  unfold statement?
  simp only [bind, Except.bind, pure, Except.pure] at hedit
  split at hedit
  · rename_i hfind
    obtain rfl := Except.ok.inj hedit
    rw [hfind]
    rfl
  · rename_i r s hfind
    obtain rfl := Except.ok.inj hedit
    rw [hfind]
    rfl

theorem replacement_moveResolver (h : d.Placed ls.length)
    (hedit : moveResolver d ls = .ok edit) :
    edit.replacement = (d.moveRewrite? ls).map (·.lines d ls) := by
  have hstatement : d.findStatement ls ["resolve"] = .ok (d.statement? ls ["resolve"]) :=
    h.findStatement_eq ["resolve"]
  unfold moveResolver at hedit
  simp only [hstatement, bind, Except.bind, pure, Except.pure, h.retains_eq, h.reassemble_eq] at hedit
  unfold moveRewrite?
  split at hedit
  · rename_i hresolver
    obtain rfl := Except.ok.inj hedit
    have hnone : d.resolver? ls = none := hresolver
    simp only [hnone, methodBelow, Option.bind_eq_bind, Option.bind_none, Option.bind_fun_none]
    rfl
  rename_i resolver hresolver
  have hsome : d.resolver? ls = some resolver := hresolver
  rw [hsome]
  simp only [methodBelow, Option.bind_eq_bind, Option.bind_some]
  split at hedit
  · rename_i hname
    obtain rfl := Except.ok.inj hedit
    rw [hname]
    rfl
  rename_i method hname
  rw [hname, Option.bind_some]
  unfold declaresArguments
  split at hedit
  · rename_i reason hreason
    obtain rfl := Except.ok.inj hedit
    rw [hreason]
    rfl
  rename_i trailer htrailer
  rw [htrailer]
  cases hfind : d.statement? ls ["resolve"] with
  | some entry =>
    rw [hfind] at hedit
    obtain rfl := Except.ok.inj hedit
    rfl
  | none =>
    rw [hfind] at hedit
    obtain rfl := Except.ok.inj hedit
    rfl

/-- **What a rule puts in place of a declaration.** -/
theorem replacement_eq {e : Editor} (he : e ∈ editors) (h : d.Placed ls.length)
    (hedit : e.revise d ls = .ok edit) :
    edit.replacement = (d.rewrite? ls e.rule).map (·.lines d ls) := by
  rcases editors_cases he with ⟨kind, rfl⟩ | rfl | rfl
  · rw [rewrite?_rule]
    exact replacement_flatten h hedit
  · exact replacement_renameProperty h hedit
  · exact replacement_moveResolver h hedit

end

/-! ## All declarations of a text -/

/-- Declarations that share no line follow each other. -/
theorem declarations_pairwise {ls : List Line} {keyword : String}
    (hapart : (declarations ls keyword).Pairwise fun a b => a.range.Apart b.range) :
    (declarations ls keyword).Pairwise fun a b => a.stop < b.start := by
  refine ((headers_pairwise ls keyword).and hapart).imp_of_mem ?_
  rintro a b ha hb ⟨hlt, hab⟩
  have hstart := (placed_of_mem_scan (mem_declarations.1 ha)).start_le
  exact stop_lt_of_apart (by omega) (placed_of_mem_scan (mem_declarations.1 hb)).start_le_stop hab

namespace Editor

variable {e : Editor} {ls : List Line}

/-- What a rule puts in place of the declarations that it rewrites. -/
def rewrites (e : Editor) (ls : List Line) : List Lines.Change :=
  (declarations ls e.keyword).filterMap fun d =>
    (d.rewrite? ls e.rule).map fun r => (d.range, r.lines d ls)

theorem sorted_rewrites
    (hapart : (declarations ls e.keyword).Pairwise fun a b => a.range.Apart b.range) :
    Lines.Sorted ls (e.rewrites ls) := by
  refine ⟨fun c hc => ?_, (declarations_pairwise hapart).filterMap _ fun a b hlt c hc d hd => ?_⟩
  · obtain ⟨d, hd, hrewrite⟩ := List.mem_filterMap.1 hc
    obtain ⟨r, -, rfl⟩ := Option.map_eq_some_iff.1 hrewrite
    have hplaced := placed_of_mem_scan (mem_declarations.1 hd)
    exact ⟨hplaced.start_le_stop, hplaced.stop_lt⟩
  · obtain ⟨r, -, rfl⟩ := Option.map_eq_some_iff.1 hc
    obtain ⟨s, -, rfl⟩ := Option.map_eq_some_iff.1 hd
    exact hlt

theorem replacements_eq {plan : Plan} (hplan : plan.map Prod.fst = declarations ls e.keyword)
    (hreplacement : ∀ entry ∈ plan, entry.2.replacement =
      (entry.1.rewrite? ls e.rule).map (·.lines entry.1 ls)) : replacements plan = e.rewrites ls := by
  unfold rewrites
  rw [← hplan, List.filterMap_map]
  refine List.filterMap_congr fun entry hentry => ?_
  rw [hreplacement entry hentry, Option.map_map]
  rfl

/-- The edits that a rule plans for a text whose declarations share no line, and carries out. -/
theorem exists_plan (he : e ∈ editors) (ns source : Text)
    (hapart : (declarations (Text.lines source) e.keyword).Pairwise fun a b => a.range.Apart b.range) :
    ∃ (plan : Plan) (skipped : List Skip),
      plan.map Prod.fst = declarations (Text.lines source) e.keyword ∧
      (∀ entry ∈ plan, entry.2.replacement =
        (entry.1.rewrite? (Text.lines source) e.rule).map (·.lines entry.1 (Text.lines source))) ∧
      e.rule.apply ns source =
        .ok ⟨Text.unlines (Lines.replaceRanges (Text.lines source) (replacements plan)),
          plan.countP (alters (Text.lines source)), skipped⟩ := by
  obtain ⟨plan, skipped, hplan, hedit, hall⟩ := handleAll_eq e.rule (lawful_of_mem_editors he)
    (fun f hf => hf) (scan_pairwise (Text.lines source) e.keyword) hapart
  refine ⟨plan, skipped, hplan, fun entry hentry => ?_, ?_⟩
  · exact replacement_eq he (placed_of_mem_scan (mem_of_plan hplan hentry)) (hedit entry hentry)
  · rw [apply_of_mem_editors he, upgradeAll, hall]
    rfl

end Editor

end SchemaLift.Declaration
