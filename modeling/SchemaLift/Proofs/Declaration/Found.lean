import SchemaLift.Proofs.Declaration.Call
import SchemaLift.Proofs.Declaration.Emission

/-!
# Where a rule finds declarations to rewrite

Whether a rule rewrites a declaration is settled by its signature and by the statements of its block that
have one of a few keywords (`isSome_rewrite?`). So a rule finds the same declarations above and below
closed lines as if these were not there, and on them those that it finds on them alone
(`spliced_rewritten`).
-/

namespace SchemaLift.Declaration

open Outline Walk

/-- The keywords of the statements that settle whether a rule rewrites a declaration. -/
def settlingWords : Rule → List String
  | .field | .argument | .inputField | .connection => ["type"]
  | .propertyToMethod => methodWords
  | .resolveProc => ["resolve"]
  | _ => []

/-! ## What settles a rewrite -/

theorem named_of_offers {words : List String} {s : Statement} (h : s.offers words = true) :
    s.named words = true := by
  obtain ⟨word, hword, hk⟩ := Statement.exists_of_offers h
  exact List.any_eq_true.2 ⟨word, hword, beq_iff_eq.2 hk.symm⟩

/-- The statements directly inside the block, without their places. -/
def statementList (d : Declaration) (ls : List Line) : List Statement := (d.readStatements ls).map Prod.snd

theorem statementList_eq (d : Declaration) (ls : List Line) : d.statementList ls =
    d.children.filterMap fun r => Statement.parse (Lines.extent ls r.first r.last) := by
  unfold statementList readStatements
  rw [List.map_filterMap]
  refine List.filterMap_congr fun r _ => ?_
  rw [readAt, Option.map_map]
  exact congrFun Option.map_id _

/-- The first value of a statement with one of the keywords. -/
def firstValue (words : List String) (statements : List Statement) : Option Text :=
  (statements.find? (Statement.offers words)).map Statement.value

theorem firstValue_filter (words : List String) (statements : List Statement) :
    firstValue words (statements.filter (·.named words)) = firstValue words statements := by
  have hboth : ∀ s : Statement, decide (s.named words = true ∧ s.offers words = true) = s.offers words := by
    intro s
    rw [Bool.eq_iff_iff, decide_eq_true_iff, and_iff_right_iff_imp]
    exact fun h => named_of_offers h
  unfold firstValue
  simp only [List.find?_filter, hboth]

theorem firstValue?_eq (d : Declaration) (ls : List Line) (words : List String) :
    firstValue? (d.readStatements ls) words = firstValue words (d.statementList ls) := by
  unfold firstValue? firstOffer? firstValue statementList
  rw [List.find?_map, Option.map_map]
  rfl

theorem value_statement? (d : Declaration) (ls : List Line) (words : List String) :
    (d.statement? ls words).map (·.2.value) = firstValue words (d.statementList ls) := by
  rw [statement?_eq]
  exact firstValue?_eq d ls words

theorem isSome_methodBelow (name resolver : Option Text) (indent indent' : Text) (declared declared' : Bool) :
    (methodBelow name resolver indent declared).isSome =
      (methodBelow name resolver indent' declared').isSome := by
  unfold methodBelow resolverMethod
  cases hmethod : name.bind Name.declared? with
  | none => rfl
  | some method =>
    cases resolver with
    | none => rfl
    | some resolver =>
      simp only [Option.bind_some, bind, Except.bind]
      cases ProcLiteral.parse resolver with
      | error reason => rfl
      | ok proc =>
        simp only
        cases Accessor.adaptBody proc.parameters proc.body with
        | error reason => rfl
        | ok body => rfl

/-- Flattening applies to a header with a name and a known type that does not tell nullability yet. -/
def flattens (kind : DeclarationKind) (s : Signature) (statements : List Statement) : Bool :=
  !s.hasKeyword kind.nullabilityKey.toList && s.name.isSome &&
    ((headerType s).or (firstValue ["type"] statements)).any fun text => (TypeExpression.parse text).isSome

/-- Whether a rule rewrites a declaration with a header and with statements of its block. -/
def applies (rule : Rule) (s : Signature) (statements : List Statement) : Bool :=
  match rule with
  | .field => flattens .field s statements
  | .argument => flattens .argument s statements
  | .inputField => flattens .inputField s statements
  | .connection => flattens .connection s statements
  | .propertyToMethod => s.hasKeyword "property".toList ||
      (!s.hasKeyword "method".toList && (firstValue methodWords statements).isSome)
  | .resolveProc => (methodBelow s.name
      ((firstValue ["resolve"] statements).or (s.keyword? "resolve".toList)) [] false).isSome
  | .typeDefinition | .name | .implements | .possibleTypes | .classProc => false

section

variable (d : Declaration) (ls : List Line)

theorem isSome_flatRewrite? (kind : DeclarationKind) :
    (d.flatRewrite? ls kind).isSome = flattens kind d.signature (d.statementList ls) := by
  unfold flatRewrite? flattens
  rw [headerType_or_pulled, firstValue?_eq]
  cases d.signature.hasKeyword kind.nullabilityKey.toList with
  | true => rfl
  | false =>
    cases d.signature.name with
    | none => rfl
    | some name =>
      cases (headerType d.signature).or (firstValue ["type"] (d.statementList ls)) with
      | none => rfl
      | some text => cases htext : TypeExpression.parse text <;> simp [htext]

theorem isSome_renameRewrite? : (d.renameRewrite? ls).isSome =
    applies .propertyToMethod d.signature (d.statementList ls) := by
  unfold renameRewrite? applies
  rw [← value_statement?, Option.isSome_map]
  cases d.signature.hasKeyword "property".toList with
  | true => rfl
  | false =>
    cases d.signature.hasKeyword "method".toList with
    | true => rfl
    | false => exact Option.isSome_map

theorem resolver?_eq : d.resolver? ls =
    (firstValue ["resolve"] (d.statementList ls)).or (d.signature.keyword? "resolve".toList) := by
  rw [← value_statement?, resolver?]
  cases d.statement? ls ["resolve"] <;> rfl

/-- **What settles a rewrite.** -/
theorem isSome_rewrite? (rule : Rule) :
    (d.rewrite? ls rule).isSome = applies rule d.signature (d.statementList ls) := by
  cases rule with
  | field | argument | inputField | connection => exact isSome_flatRewrite? d ls _
  | propertyToMethod => exact isSome_renameRewrite? d ls
  | resolveProc =>
    show (d.moveRewrite? ls).isSome = _
    unfold moveRewrite?
    rw [Option.isSome_map, resolver?_eq]
    exact isSome_methodBelow _ _ _ _ _ _
  | typeDefinition | name | implements | possibleTypes | classProc => rfl

end

/-- A rule rewrites two declarations alike that have the same arguments and the same statements of the
keywords that settle it. -/
theorem applies_congr (rule : Rule) {s s' : Signature} {statements statements' : List Statement}
    (hname : s.name = s'.name) (hpositional : s.positional = s'.positional)
    (hkeywords : s.keywords = s'.keywords)
    (hstatements : statements.filter (·.named (settlingWords rule)) =
      statements'.filter (·.named (settlingWords rule))) :
    applies rule s statements = applies rule s' statements' := by
  have hvalue : firstValue (settlingWords rule) statements = firstValue (settlingWords rule) statements' := by
    rw [← firstValue_filter, hstatements, firstValue_filter]
  have hkeyword : ∀ key, s.keyword? key = s'.keyword? key := by
    intro key
    unfold Signature.keyword?
    rw [hkeywords]
  have hflat : ∀ kind, settlingWords rule = ["type"] →
      flattens kind s statements = flattens kind s' statements' := by
    intro kind hwords
    rw [hwords] at hvalue
    unfold flattens headerType Signature.hasKeyword
    rw [hkeyword, hname, hpositional, hvalue]
  cases rule with
  | field => exact hflat .field rfl
  | argument => exact hflat .argument rfl
  | inputField => exact hflat .inputField rfl
  | connection => exact hflat .connection rfl
  | propertyToMethod =>
    have hvalue : firstValue methodWords statements = firstValue methodWords statements' := hvalue
    simp only [applies, Signature.hasKeyword, hkeyword, hvalue]
  | resolveProc =>
    have hvalue : firstValue ["resolve"] statements = firstValue ["resolve"] statements' := hvalue
    simp only [applies, hname, hkeyword, hvalue]
  | typeDefinition | name | implements | possibleTypes | classProc => rfl

/-! ## Going through a text -/

/-- The number of lines that a scan for a keyword takes behind the first one. -/
def callReach (keyword : String) (ls : List Line) : Nat :=
  if ls.head?.any (startsOn keyword) then (call? ls).elim 0 Call.reach else 0

section

variable (keyword : String) (rule : Rule) (ls : List Line)

/-- Whether a declaration begins on a line that the rule rewrites. -/
def rewritesAt (index : Nat) : Bool :=
  ls[index]?.any (startsOn keyword) &&
    (locate ls (ofLines ls) keyword index).toOption.any fun d => (d.rewrite? ls rule).isSome

/-- The lines on which the declarations begin that the rule rewrites. -/
def rewritten : List Nat :=
  ((declarations ls keyword).filter fun d => (d.rewrite? ls rule).isSome).map Declaration.start

variable {keyword rule ls}

theorem filterMap_scanFrom {taken index : Nat} {rest : List Line} (hrest : ls.drop index = rest) :
    (((scanFrom ls (ofLines ls) keyword taken index rest).filterMap Found.declaration?).filter
        fun d => (d.rewrite? ls rule).isSome).map Declaration.start =
      (stops (callReach keyword) taken index rest).filter (rewritesAt keyword rule ls) := by
  induction rest generalizing taken index with
  | nil => rfl
  | cons line rest ih =>
    have hline := getElem?_of_drop_eq_cons hrest
    have hnext := drop_succ_of_drop_eq_cons hrest
    cases taken with
    | succ taken => exact ih hnext
    | zero =>
      have hreads := locate_reads ls keyword index
      rw [hrest] at hreads
      rw [scanFrom, stops]
      cases hstarts : startsOn keyword line with
      | false =>
        have hreach : callReach keyword (line :: rest) = 0 := by simp [callReach, hstarts]
        have hat : rewritesAt keyword rule ls index = false := by simp [rewritesAt, hline, hstarts]
        have hno : ¬rewritesAt keyword rule ls index = true := by rw [hat]; exact Bool.false_ne_true
        rw [if_neg Bool.false_ne_true, hreach, List.filter_cons_of_neg hno]
        exact ih hnext
      | true =>
        rw [if_pos rfl]
        cases hlocate : locate ls (ofLines ls) keyword index with
        | error reason =>
          rw [hlocate] at hreads
          generalize hcall : call? (line :: rest) = c at hreads
          cases hreads
          have hreach : callReach keyword (line :: rest) = 0 := by simp [callReach, hstarts, hcall]
          have hat : rewritesAt keyword rule ls index = false := by
            simp [rewritesAt, hline, hstarts, hlocate, Except.toOption]
          rw [hreach, List.filter_cons_of_neg (by rw [hat]; exact Bool.false_ne_true)]
          exact ih hnext
        | ok d =>
          rw [hlocate] at hreads
          generalize hcall : call? (line :: rest) = c at hreads
          cases hreads with
          | some hreads =>
            rename_i c
            have hreach : callReach keyword (line :: rest) = c.reach := by simp [callReach, hstarts, hcall]
            have hat : rewritesAt keyword rule ls index = (d.rewrite? ls rule).isSome := by
              simp [rewritesAt, hline, hstarts, hlocate, Except.toOption]
            have hfound : (Found.declaration d).declaration? = some d := rfl
            rw [hreach, List.filter_cons, hat, List.filterMap_cons_some hfound, List.filter_cons]
            simp only [hreads.headerEnd, Nat.add_sub_cancel_left]
            split
            · rw [List.map_cons, hreads.start, ih hnext]
            · exact ih hnext

theorem rewritten_eq : rewritten keyword rule ls =
    (stops (callReach keyword) 0 0 ls).filter (rewritesAt keyword rule ls) :=
  filterMap_scanFrom rfl

end

/-! ## Closed lines in a text -/

/-- Whether the header of a call of the keyword that begins on the first line ends on these lines, and so
does a statement that settles what the rule does. -/
def endsReading (keyword : String) (rule : Rule) (ls : List Line) : Bool :=
  (!ls.head?.any (startsOn keyword) || endsHeader ls) &&
    (!ls.head?.any (beginsWith (settlingWords rule)) || ((ofLines ls).statementEnd 0).isSome)

section

variable {keyword : String} {rule : Rule} {above stretch : List Line}

theorem callReach_lt {t : List Line} (hne : t ≠ []) : callReach keyword t < t.length := by
  have hpos := List.length_pos_of_ne_nil hne
  unfold callReach
  split
  · cases hcall : call? t with
    | none => exact hpos
    | some c => exact reach_lt hcall
  · exact hpos

/-- Whether a rule rewrites the call that begins on the first line. -/
def rewritesFirst (keyword : String) (rule : Rule) (ls : List Line) : Bool :=
  ls.head?.any (startsOn keyword) && (call? ls).any fun c => applies rule c.signature (statementsOf c.body)

/-- Whether a rule rewrites what begins on a line is settled by the call that is read there. -/
theorem rewritesAt_eq (ls : List Line) (i : Nat) :
    rewritesAt keyword rule ls i = rewritesFirst keyword rule (ls.drop i) := by
  unfold rewritesAt rewritesFirst
  rw [← List.head?_drop]
  cases (ls.drop i).head?.any (startsOn keyword) with
  | false => rfl
  | true =>
    have hreads := locate_reads ls keyword i
    generalize (locate ls (ofLines ls) keyword i).toOption = found at hreads
    generalize call? (ls.drop i) = c at hreads
    cases hreads with
    | none => rfl
    | some hreads =>
      simp only [Option.any_some, isSome_rewrite?, statementList_eq, hreads.signature, hreads.statements]

theorem rewritesAt_congr {ls ls' : List Line} {i i' : Nat} (hline : (ls.drop i).head? = (ls'.drop i').head?)
    (hcall : (ls.drop i).head?.any (startsOn keyword) = true →
      Option.Rel (Call.Like (settlingWords rule)) (call? (ls.drop i)) (call? (ls'.drop i'))) :
    rewritesAt keyword rule ls i = rewritesAt keyword rule ls' i' := by
  rw [rewritesAt_eq, rewritesAt_eq, rewritesFirst, rewritesFirst, ← hline]
  cases hstarts : (ls.drop i).head?.any (startsOn keyword) with
  | false => rfl
  | true =>
    have hlike := hcall hstarts
    generalize call? (ls.drop i) = c at hlike
    generalize call? (ls'.drop i') = c' at hlike
    cases hlike with
    | none => rfl
    | some hlike =>
      rw [Option.any_some, Option.any_some, hlike.signature]
      exact congrArg _ (applies_congr rule rfl rfl rfl hlike.statements)

theorem relLike_refl (words : List String) (c : Option Call) : Option.Rel (Call.Like words) c c := by
  cases c with
  | none => exact .none
  | some c => exact .some (.refl words c)

/-- What begins on closed lines is found as if it stood alone. -/
theorem rewritesFirst_inside (hstretch : (ofLines stretch).Closed) (below : List Line) {t : List Line}
    (ht : t <:+ stretch) (hne : t ≠ []) : callReach keyword (t ++ below) = callReach keyword t ∧
      rewritesFirst keyword rule (t ++ below) = rewritesFirst keyword rule t := by
  unfold callReach rewritesFirst
  rw [List.head?_append_of_ne_nil _ hne, call?_inside hstretch below ht hne]
  exact ⟨rfl, rfl⟩

/-- A header that ends on some lines takes no line below them. -/
theorem callReach_lt_of_endsReading {t : List Line} (h : endsReading keyword rule t = true) (hne : t ≠ [])
    (rest : List Line) : callReach keyword (t ++ rest) < t.length := by
  unfold endsReading at h
  unfold callReach
  rw [List.head?_append_of_ne_nil _ hne]
  cases hstarts : t.head?.any (startsOn keyword) with
  | false => exact List.length_pos_of_ne_nil hne
  | true =>
    rw [hstarts, Bool.not_true, Bool.false_or, Bool.and_eq_true] at h
    rw [if_pos rfl]
    cases hcall : call? (t ++ rest) with
    | none => exact List.length_pos_of_ne_nil hne
    | some c => exact reach_lt_of_endsHeader h.1 hcall

/-- **Closed lines make no difference elsewhere.** -/
theorem spliced_rewritten (habove : (ofLines above).Finished) (hstretch : (ofLines stretch).Closed)
    (hends : ∀ t, t <:+ above → endsReading keyword rule t = true)
    (hinert : above ≠ [] → ∀ i ∈ stops statementReach 0 0 stretch,
      (stretch.drop i).head?.any (beginsWith (settlingWords rule)) = false) (below : List Line) :
    Spliced above.length stretch.length (rewritten keyword rule stretch)
      (rewritten keyword rule (above ++ below)) (rewritten keyword rule (above ++ (stretch ++ below))) := by
  have hheader : ∀ t, t <:+ above → t.head?.any (startsOn keyword) = true → endsHeader t = true := by
    intro t ht hstarts
    have hreading := hends t ht
    rw [endsReading, Bool.and_eq_true] at hreading
    simpa [hstarts] using hreading.1
  have hstatement : ∀ t, t <:+ above → t.head?.any (beginsWith (settlingWords rule)) = true →
      ((ofLines t).statementEnd 0).isSome = true := by
    intro t ht hword
    have hreading := hends t ht
    rw [endsReading, Bool.and_eq_true] at hreading
    simpa [hword] using hreading.2
  have hlike : ∀ t, t <:+ above → t.head?.any (startsOn keyword) = true →
      Option.Rel (fun c c' => c.Like (settlingWords rule) c' ∧ c'.reach < t.length)
        (call? (t ++ (stretch ++ below))) (call? (t ++ below)) := by
    intro t ht hstarts
    have hne : above ≠ [] := by
      rintro rfl
      rw [List.suffix_nil.1 ht] at hstarts
      cases hstarts
    exact call?_over habove hstretch hstatement (hinert hne) below ht (hheader t ht hstarts)
  have hhead : ∀ {t : List Line} (rest : List Line), t ≠ [] → (t ++ rest).head? = t.head? :=
    fun rest hne => List.head?_append_of_ne_nil _ hne
  have hpasses : ∀ t, t <:+ above → t ≠ [] → callReach keyword (t ++ (stretch ++ below)) =
      callReach keyword (t ++ below) ∧ callReach keyword (t ++ below) < t.length := by
    intro t ht hne
    have hpos := List.length_pos_of_ne_nil hne
    unfold callReach
    rw [hhead _ hne, hhead _ hne]
    split
    · rename_i hstarts
      have hcalls := hlike t ht hstarts
      generalize call? (t ++ (stretch ++ below)) = c at hcalls
      generalize call? (t ++ below) = c' at hcalls
      cases hcalls with
      | none => exact ⟨rfl, hpos⟩
      | some hcalls => exact ⟨hcalls.1.reach, hcalls.2⟩
    · exact ⟨rfl, hpos⟩
  have hinside : ∀ t, t <:+ stretch → t ≠ [] → callReach keyword (t ++ below) = callReach keyword t ∧
      callReach keyword t < t.length := by
    intro t ht hne
    obtain ⟨hreach, -⟩ : _ ∧ rewritesFirst keyword rule (t ++ below) = _ :=
      rewritesFirst_inside hstretch below ht hne
    exact ⟨hreach, callReach_lt hne⟩
  rw [rewritten_eq, rewritten_eq, rewritten_eq]
  have hspliced := spliced_stops (fun t ht hne => .inl (hpasses t ht hne)) hinside
  rcases hspliced with hspliced | ⟨⟨t, ht, hne, hstretch', hover⟩, -⟩
  · refine hspliced.filter (fun i hi => ?_) (fun i hi => ?_) fun i => ?_
    · have hne := drop_ne_nil hi
      refine rewritesAt_congr ?_ fun hstarts => ?_
      · rw [drop_above hi.le, drop_above hi.le, hhead _ hne, hhead _ hne]
      · rw [drop_above hi.le, hhead _ hne] at hstarts
        have hcalls := hlike _ (List.drop_suffix i above) hstarts
        rw [drop_above hi.le, drop_above hi.le]
        generalize call? (above.drop i ++ (stretch ++ below)) = c at hcalls ⊢
        generalize call? (above.drop i ++ below) = c' at hcalls ⊢
        cases hcalls with
        | none => exact .none
        | some hcalls => exact .some hcalls.1
    · have hlt := (mem_stops_bounds hi).2
      rw [Nat.zero_add] at hlt
      have hne := drop_ne_nil hlt
      refine rewritesAt_congr ?_ fun _ => ?_
      · rw [drop_inside hlt.le, hhead _ hne]
      · rw [drop_inside hlt.le, call?_inside hstretch below (List.drop_suffix i stretch) hne]
        exact relLike_refl _ _
    · refine rewritesAt_congr ?_ fun _ => ?_
      · rw [drop_below]
      · rw [drop_below]
        exact relLike_refl _ _
  · exfalso
    have hsame := (hpasses t ht hne).1
    have hpos := List.length_pos_of_ne_nil hstretch'
    omega

end

end SchemaLift.Declaration
