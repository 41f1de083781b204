import SchemaLift.Proofs.Call.Weight
import SchemaLift.Proofs.Declaration.Emission
import SchemaLift.Proofs.Declaration.Taken

/-!
# The values of a rewritten declaration

The values that a new header passes are those of the old header and those of the statements that go, each
once. Only the name, the type and the marks of a flat declaration are written anew, and a resolver that
becomes a method is passed no longer (`sum_values_rewrite`).
-/

namespace SchemaLift.Declaration

/-- The value of the statement on a range of lines. -/
def valueAt (ls : List Line) (range : LineRange) : Text :=
  ((readAt ls range).map (·.2.value)).getD []

section

variable {d : Declaration} {ls : List Line} {kind : DeclarationKind}

theorem valueAt_of_mem {entry : LineRange × Statement} (h : entry ∈ d.readStatements ls) :
    valueAt ls entry.1 = entry.2.value := by
  obtain ⟨range, -, hread⟩ := List.mem_filterMap.1 h
  obtain ⟨s, hs, rfl⟩ := Option.map_eq_some_iff.1 hread
  rw [valueAt, hread]
  rfl

/-- A resolver that the block of a flat declaration gives is the one that can be moved. -/
theorem statement?_of_pulled {entry : LineRange × Statement} (h : (d.pulled ls kind).resolver = some entry) :
    d.statement? ls ["resolve"] = some entry := by
  rw [pulled_resolver] at h
  split at h
  · rw [statement?_eq, h]
  · cases h

/-! ## Resolvers -/

theorem resolver?_of_statement? {entry : LineRange × Statement}
    (h : d.statement? ls ["resolve"] = some entry) : d.resolver? ls = some entry.2.value := by
  rw [resolver?, h]

theorem resolver?_of_keyword? {resolver : Text} (h : d.statement? ls ["resolve"] = none)
    (hresolver : d.signature.keyword? "resolve".toList = some resolver) : d.resolver? ls = some resolver := by
  rw [resolver?, h, hresolver]

/-- A flat declaration has the resolver of its argument. -/
theorem resolver?_of_flat {resolver name : Text} {t : TypeExpression} (hfield : kind.isField = true)
    (hnone : (d.pulled ls kind).resolver = none)
    (hresolver : (flatSignature kind d.signature name (d.pulled ls kind) t).keyword? "resolve".toList =
      some resolver) : d.resolver? ls = some resolver := by
  rw [keyword?_flatSignature] at hresolver
  rw [pulled_resolver, if_pos hfield, ← statement?_eq] at hnone
  exact resolver?_of_keyword? hnone hresolver

/-- What stands below a declaration is the method of its resolver. -/
theorem exists_method_of_rewrite? {r : Rewrite} {rule : Rule} (h : d.rewrite? ls rule = some r) :
    r.trailer = [] ∨ ∃ resolver declared, d.resolver? ls = some resolver ∧
      methodBelow d.signature.name (some resolver) d.signature.indent declared = some r.trailer := by
  cases made_of_rewrite? h with
  | flat => exact .inl rfl
  | renamed => exact .inl rfl
  | pushed => exact .inl rfl
  | flatStatement _ _ _ hentry hmethod =>
    exact .inr ⟨_, _, resolver?_of_statement? (statement?_of_pulled hentry), hmethod⟩
  | flatArgument hfield _ _ _ hnone hkeyword hmethod =>
    exact .inr ⟨_, _, resolver?_of_flat hfield hnone hkeyword, hmethod⟩
  | movedStatement hentry hmethod => exact .inr ⟨_, _, resolver?_of_statement? hentry, hmethod⟩
  | movedArgument hnone hkeyword hmethod =>
    exact .inr ⟨_, _, resolver?_of_keyword? hnone hkeyword, hmethod⟩

end

/-- The values of a resolver that becomes a method. -/
def Rewrite.moved (r : Rewrite) (d : Declaration) (ls : List Line) : List Text :=
  if r.trailer = [] then [] else (d.resolver? ls).toList

section

variable {name resolver : Option Text} {indent : Text} {declared : Bool} {trailer : List Line}
  (h : methodBelow name resolver indent declared = some trailer)
include h

theorem ne_nil_of_methodBelow : trailer ≠ [] := by
  obtain ⟨method, -, h⟩ := Option.bind_eq_some_iff.1 h
  obtain ⟨text, -, h⟩ := Option.bind_eq_some_iff.1 h
  obtain ⟨header, body, -, rfl⟩ := resolverMethod_ok (toOption_eq_some_iff.1 h)
  exact List.cons_ne_nil _ _

end

section

variable {M : Type} [AddCommMonoid M] (f : Text → M) {d : Declaration} {ls : List Line}
  {kind : DeclarationKind}

/-! ## What is collected -/

/-- What was collected from statements that go. -/
def Pulled.values (p : Pulled) : List Text :=
  p.type.toList ++ p.description.toList ++ p.method.toList ++ p.settings.map KeywordArgument.value

theorem Pulled.sum_values_add {p : Pulled} (typed described : Bool) {entry : LineRange × Statement}
    (h : entry ∈ d.readStatements ls)
    (hp : (p.values.map f).sum = (p.removed.map fun range => f (valueAt ls range)).sum) :
    ((p.add kind typed described entry.1 entry.2).values.map f).sum =
      ((p.add kind typed described entry.1 entry.2).removed.map fun range => f (valueAt ls range)).sum := by
  have hadds := adds_add kind typed described p entry.1 entry.2
  generalize p.add kind typed described entry.1 entry.2 = q at hadds ⊢
  have hvalue := valueAt_of_mem h
  -- what is taken out joins the values once
  have htake : ∀ q : Pulled, q.removed = p.removed →
      (q.values.map f).sum = (p.values.map f).sum + f entry.2.value →
      ((q.take entry.1 entry.2).values.map f).sum =
        ((q.take entry.1 entry.2).removed.map fun range => f (valueAt ls range)).sum := by
    intro q hremoved hsum
    show (q.values.map f).sum = ((q.removed ++ [entry.1]).map fun range => f (valueAt ls range)).sum
    rw [hsum, hp, hremoved, List.map_append, List.sum_append, List.map_singleton, List.sum_singleton,
      hvalue]
  cases hadds with
  | kept => exact hp
  | type _ _ _ hnone =>
    refine htake _ rfl ?_
    simp [Pulled.values, Option.isNone_iff_eq_none.1 hnone]
    abel
  | description _ _ hnone =>
    refine htake _ rfl ?_
    simp [Pulled.values, Option.isNone_iff_eq_none.1 hnone]
    abel
  | method _ _ hnone =>
    refine htake _ rfl ?_
    simp [Pulled.values, Option.isNone_iff_eq_none.1 hnone]
    abel
  | resolver => exact hp
  | setting =>
    refine htake _ rfl ?_
    simp [Pulled.values, KeywordArgument.labelled]
    abel

/-- The values that are collected are those of the statements that go. -/
theorem sum_values_pulled : ((d.pulled ls kind).values.map f).sum =
    ((d.pulled ls kind).removed.map fun range => f (valueAt ls range)).sum := by
  have hfold : ∀ (entries : List (LineRange × Statement)) (p : Pulled) (typed described : Bool),
      (∀ entry ∈ entries, entry ∈ d.readStatements ls) →
      (p.values.map f).sum = (p.removed.map fun range => f (valueAt ls range)).sum →
      ((entries.foldl (fun p entry => p.add kind typed described entry.1 entry.2) p).values.map f).sum =
        ((entries.foldl (fun p entry => p.add kind typed described entry.1 entry.2) p).removed.map
          fun range => f (valueAt ls range)).sum := by
    intro entries p typed described hmem hp
    induction entries generalizing p with
    | nil => exact hp
    | cons entry rest ih =>
      obtain ⟨hentry, hrest⟩ := List.forall_mem_cons.1 hmem
      exact ih _ hrest (p.sum_values_add f typed described hentry hp)
  exact hfold _ _ _ _ (fun _ => id) rfl

/-! ## New headers -/

/-- The values are the name, the other positional arguments and those behind keys. -/
theorem sum_values_eq (s : Signature) : (s.values.map f).sum =
    (s.name.toList.map f).sum + (s.positional.map f).sum + (s.keywords.map fun a => f a.value).sum := by
  rw [Signature.values, List.map_append, List.sum_append, List.map_append, List.sum_append, List.map_map]
  rfl

theorem Signature.values_renameKeyword (s : Signature) (old new : Text) :
    (s.renameKeyword old new).values = s.values := by
  have hrename : ∀ as : List KeywordArgument,
      (Signature.renameFirst old new as).map KeywordArgument.value = as.map KeywordArgument.value := by
    intro as
    induction as with
    | nil => rfl
    | cons a rest ih =>
      rw [Signature.renameFirst]
      split
      · rfl
      · rw [List.map_cons, ih, List.map_cons]
  exact congrArg (s.name.toList ++ s.positional ++ ·) (hrename s.keywords)

theorem sum_eraseP {α : Type} (g : α → M) {p : α → Bool} {as : List α} {a : α} (h : as.find? p = some a) :
    ((as.eraseP p).map g).sum + g a = (as.map g).sum := by
  induction as with
  | nil => cases h
  | cons b rest ih =>
    by_cases hb : p b = true
    · rw [List.find?_cons_of_pos hb] at h
      obtain rfl := Option.some.inj h
      rw [List.eraseP_cons_of_pos hb, List.map_cons, List.sum_cons, add_comm]
    · rw [List.find?_cons_of_neg hb] at h
      rw [List.eraseP_cons_of_neg hb, List.map_cons, List.map_cons, List.sum_cons, List.sum_cons,
        add_assoc, ih h]

/-- An argument that is taken out of a call takes its value along. -/
theorem sum_values_removeKeyword {s : Signature} {key value : Text} (h : s.keyword? key = some value) :
    ((s.removeKeyword key).values.map f).sum + f value = (s.values.map f).sum := by
  obtain ⟨a, ha, rfl⟩ := Option.map_eq_some_iff.1 h
  have hkeywords := sum_eraseP (fun a => f a.value) ha
  rw [sum_values_eq, sum_values_eq, ← hkeywords, ← add_assoc]
  rfl

variable {f}

/-- Nothing changes for what is counted where a flat declaration is written anew. -/
structure Neutral (f : Text → M) (d : Declaration) (ls : List Line) : Prop where
  name : ∀ name ∈ d.signature.name, f ((Name.declared? name).elim name Name.symbol) = f name
  type : ∀ text ∈ (headerType d.signature).or (firstValue? (d.readStatements ls) ["type"]),
    ∀ t, TypeExpression.parse text = some t → f text = 0 ∧ f t.render = 0
  marks : f "true".toList = 0 ∧ f "false".toList = 0

variable (hf : Neutral f d ls)
include hf

theorem Neutral.sum_flatSignature {name text : Text} {t : TypeExpression}
    (hname : d.signature.name = some name)
    (htext : (headerType d.signature).or (d.pulled ls kind).type = some text)
    (ht : TypeExpression.parse text = some t) :
    ((flatSignature kind d.signature name (d.pulled ls kind) t).values.map f).sum =
      (d.signature.values.map f).sum +
        ((d.pulled ls kind).removed.map fun range => f (valueAt ls range)).sum := by
  obtain ⟨hzero, hrender⟩ := hf.type text (headerType_or_pulled ▸ htext) t ht
  have hnull : f (kind.nullabilityValue t) = 0 := by
    unfold DeclarationKind.nullabilityValue
    cases (if kind.isField = true then t.nullable else !t.nullable)
    · exact hf.marks.2
    · exact hf.marks.1
  -- the type goes from the header or from the block
  have htypes : (d.signature.positional.map f).sum = ((otherPositional d.signature).map f).sum ∧
      ((d.pulled ls kind).type.toList.map f).sum = 0 := by
    cases hheader : headerType d.signature with
    | some own =>
      rw [hheader, Option.some_or] at htext
      obtain rfl := Option.some.inj htext
      obtain ⟨first, hfirst, hown⟩ := Option.bind_eq_some_iff.1 hheader
      obtain ⟨rest, hpositional⟩ := List.head?_eq_some_iff.1 hfirst
      split at hown
      · cases hown
      obtain rfl := Option.some.inj hown
      constructor
      · rw [otherPositional, hheader, hpositional, List.map_cons, List.sum_cons, hzero, zero_add]
        rfl
      · rw [pulled_type, hheader]
        rfl
    | none =>
      rw [hheader, Option.none_or] at htext
      constructor
      · rw [otherPositional, hheader]
        rfl
      · rw [htext, Option.toList_some, List.map_singleton, List.sum_singleton, hzero]
  rw [← sum_values_pulled]
  generalize d.pulled ls kind = pulled at htypes ⊢
  have hkeywords : ((flatKeywords kind d.signature pulled t).map fun a => f a.value).sum =
      (d.signature.keywords.map fun a => f a.value).sum +
        (pulled.settings.map fun a => f a.value).sum + (pulled.method.toList.map f).sum := by
    have hmethod : ((pulled.method.map (KeywordArgument.labelled "method".toList)).toList.map
        fun a => f a.value).sum = (pulled.method.toList.map f).sum := by
      cases pulled.method <;> rfl
    have hconnection : ((if kind = .connection then
        [KeywordArgument.labelled "connection".toList "true".toList] else []).map
          fun a => f a.value).sum = 0 := by
      split
      · exact (add_zero _).trans hf.marks.1
      · rfl
    have hmark : ([KeywordArgument.labelled kind.nullabilityKey.toList (kind.nullabilityValue t)].map
        fun a => f a.value).sum = 0 := (add_zero _).trans hnull
    unfold flatKeywords
    rw [List.map_append, List.sum_append, hconnection, List.map_append, List.sum_append, hmethod,
      List.map_append, List.sum_append, hmark, List.map_append, List.sum_append, add_zero, add_zero]
  have hpositional : ((flatPositional d.signature pulled t).map f).sum =
      (pulled.description.toList.map f).sum + ((otherPositional d.signature).map f).sum := by
    have hall : flatPositional d.signature pulled t =
        t.render :: (pulled.description.toList ++ otherPositional d.signature) := rfl
    rw [hall, List.map_cons, List.sum_cons, hrender, zero_add, List.map_append, List.sum_append]
  have hpulled : (pulled.values.map f).sum = (pulled.type.toList.map f).sum +
      (pulled.description.toList.map f).sum + (pulled.method.toList.map f).sum +
        (pulled.settings.map fun a => f a.value).sum := by
    rw [Pulled.values, List.map_append, List.sum_append, List.map_append, List.sum_append,
      List.map_append, List.sum_append, List.map_map]
    rfl
  have hflat : ((flatSignature kind d.signature name pulled t).values.map f).sum =
      f name + ((flatPositional d.signature pulled t).map f).sum +
        ((flatKeywords kind d.signature pulled t).map fun a => f a.value).sum := by
    rw [sum_values_eq, ← hf.name name hname, ← add_zero (f _)]
    rfl
  rw [hflat, hpositional, hkeywords, hpulled, sum_values_eq, hname, htypes.1, htypes.2,
    Option.toList_some, List.map_singleton, List.sum_singleton]
  abel

/-! ## The rules -/

/-- **Values are neither lost nor doubled**: what the new header passes, and what the resolver adds that
becomes a method, is what the old header passed and what the statements added that go. -/
theorem sum_values_rewrite {r : Rewrite} {rule : Rule} (hr : d.rewrite? ls rule = some r) :
    (r.header.values.map f).sum + ((r.moved d ls).map f).sum =
      (d.signature.values.map f).sum + (r.removed.map fun range => f (valueAt ls range)).sum := by
  have hpush : ∀ s : Signature, ∀ value, ((s.pushKeyword "method".toList value).values.map f).sum =
      (s.values.map f).sum + f value := by
    intro s value
    have hvalues : (s.pushKeyword "method".toList value).values = s.values ++ [value] := by
      rw [Signature.values, Signature.pushKeyword, List.map_append, ← List.append_assoc]
      rfl
    rw [hvalues, List.map_append, List.sum_append, List.map_singleton, List.sum_singleton]
  -- a method has lines, so its resolver has moved
  have hmoved : ∀ {header removed resolver declared trailer},
      methodBelow d.signature.name (some resolver) d.signature.indent declared = some trailer →
      d.resolver? ls = some resolver →
      ((Rewrite.moved ⟨header, removed, trailer⟩ d ls).map f).sum = f resolver := by
    intro header removed resolver declared trailer hmethod hresolver
    rw [Rewrite.moved, if_neg (ne_nil_of_methodBelow hmethod), hresolver]
    exact add_zero _
  have hstatement : ∀ {entry}, d.statement? ls ["resolve"] = some entry →
      d.resolver? ls = some entry.2.value ∧ valueAt ls entry.1 = entry.2.value := fun hentry =>
    ⟨resolver?_of_statement? hentry, valueAt_of_mem (List.mem_of_find?_eq_some hentry)⟩
  cases made_of_rewrite? hr with
  | flat hname htext ht => exact (add_zero _).trans (hf.sum_flatSignature hname htext ht)
  | flatStatement hname htext ht hentry hmethod =>
    have hsum := hf.sum_flatSignature hname htext ht
    obtain ⟨hresolver, hvalue⟩ := hstatement (statement?_of_pulled hentry)
    rw [hmoved hmethod hresolver, List.map_append, List.sum_append, List.map_singleton,
      List.sum_singleton, hvalue, ← add_assoc, ← hsum]
    rfl
  | flatArgument hfield hname htext ht hnone hkeyword hmethod =>
    rw [hmoved hmethod (resolver?_of_flat hfield hnone hkeyword), sum_values_removeKeyword f hkeyword]
    exact hf.sum_flatSignature hname htext ht
  | renamed =>
    rw [Signature.values_renameKeyword]
    rfl
  | @pushed entry hentry =>
    have hsum := hpush (d.signature.renameKeyword "property".toList "method".toList) entry.2.value
    rw [Signature.values_renameKeyword] at hsum
    rw [List.map_singleton, List.sum_singleton, valueAt_of_mem (List.mem_of_find?_eq_some hentry)]
    exact (add_zero _).trans hsum
  | movedStatement hentry hmethod =>
    obtain ⟨hresolver, hvalue⟩ := hstatement hentry
    rw [hmoved hmethod hresolver, List.map_singleton, List.sum_singleton, hvalue]
    rfl
  | movedArgument hnone hkeyword hmethod =>
    rw [hmoved hmethod (resolver?_of_keyword? hnone hkeyword), sum_values_removeKeyword f hkeyword]
    exact (add_zero _).symm

end

end SchemaLift.Declaration
