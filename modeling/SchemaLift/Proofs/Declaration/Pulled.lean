import SchemaLift.Proofs.Declaration.Revision
import SchemaLift.Proofs.Upgrade.Pipeline

/-!
# Where the statements of a block go

No statement that a revision takes out of a block is lost. Its value becomes an argument of the header,
or the method below it, and its comments go to the header (`Moved`); what flattening collects from the
statements keeps track of this statement by statement (`Pulled.Sound`), and so every declaration that
is put together anew passes on what left its block (`passesOn_of_mem_editors`).
-/

namespace SchemaLift

/-- Whether a statement has a value and one of the keywords. -/
def Statement.offers (words : List String) (s : Statement) : Bool :=
  !s.value.isEmpty && words.any fun word => s.keyword == word.toList

theorem Statement.exists_of_offers {words : List String} {s : Statement} (h : s.offers words = true) :
    ∃ word ∈ words, s.keyword = word.toList := by
  obtain ⟨word, hword, hk⟩ := List.any_eq_true.1 (Bool.and_eq_true_iff.1 h).2
  exact ⟨word, hword, beq_iff_eq.1 hk⟩

namespace Declaration

/-! ## Collecting statements -/

namespace Pulled

/-- All that one statement can do to what was collected: nothing, be the first resolver, or leave the
block as a type, a description, a method or a setting. -/
inductive Adds (kind : DeclarationKind) (typed described : Bool) (p : Pulled) (r : LineRange)
    (s : Statement) : Pulled → Prop
  | kept (hsetting : s.offers kind.settingWords = false)
      (hmethod : (kind.isField && s.offers methodWords) = true → p.method.isSome = true) :
      Adds kind typed described p r s p
  | type (hvalue : s.value.isEmpty = false) (hk : s.keyword = "type".toList) (htyped : typed = false)
      (hnone : p.type.isNone = true) :
      Adds kind typed described p r s ({ p with type := some s.value }.take r s)
  | description (hvalue : s.value.isEmpty = false) (hk : s.keyword = "description".toList)
      (hnone : p.description.isNone = true) :
      Adds kind typed described p r s ({ p with description := some s.value }.take r s)
  | method (hk : s.offers methodWords = true) (hfield : kind.isField = true)
      (hnone : p.method.isNone = true) :
      Adds kind typed described p r s ({ p with method := some s.value }.take r s)
  | resolver (hk : s.keyword = "resolve".toList)
      (hmethod : (kind.isField && s.offers methodWords) = true → p.method.isSome = true) :
      Adds kind typed described p r s { p with resolver := some (r, s) }
  | setting (hk : s.offers kind.settingWords = true)
      (hmethod : (kind.isField && s.offers methodWords) = true → p.method.isSome = true) :
      Adds kind typed described p r s
        ({ p with settings := p.settings ++ [KeywordArgument.labelled s.keyword s.value] }.take r s)

theorem adds_add (kind : DeclarationKind) (typed described : Bool) (p : Pulled) (r : LineRange)
    (s : Statement) : Adds kind typed described p r s (p.add kind typed described r s) := by
  unfold add
  extract_lets isWord
  by_cases hempty : s.value.isEmpty = true
  · have hoffers : ∀ words, s.offers words = false := fun words => by
      rw [Statement.offers, hempty, Bool.not_true, Bool.false_and]
    rw [if_pos hempty]
    exact .kept (hoffers _) fun h => by simp [hoffers] at h
  have hvalue : s.value.isEmpty = false := Bool.eq_false_iff.2 hempty
  have hoffers : ∀ words : List String, s.offers words = words.any isWord := fun words => by
    rw [Statement.offers, hvalue, Bool.not_false, Bool.true_and]
  rw [if_neg hempty]
  split
  · rename_i hc
    simp only [isWord, Bool.and_eq_true, beq_iff_eq, Bool.not_eq_true'] at hc
    exact .type hvalue hc.1.1 hc.1.2 hc.2
  split
  · rename_i hc
    simp only [isWord, Bool.and_eq_true, beq_iff_eq] at hc
    exact .description hvalue hc.1.1 hc.2
  split
  · rename_i hc
    simp only [Bool.and_eq_true, ← hoffers] at hc
    exact .method hc.1.2 hc.1.1 hc.2
  rename_i hc
  have hmethod : (kind.isField && s.offers methodWords) = true → p.method.isSome = true := by
    intro h
    rw [← hoffers, h, Bool.true_and] at hc
    exact Option.isSome_iff_ne_none.2 fun hnone => hc (Option.isNone_iff_eq_none.2 hnone)
  split
  · rename_i hc
    simp only [isWord, Bool.and_eq_true, beq_iff_eq] at hc
    exact .resolver hc.1.1 hmethod
  split
  · rename_i hc
    exact .setting ((hoffers _).trans hc) hmethod
  · rename_i hc
    exact .kept ((hoffers _).trans (Bool.eq_false_iff.2 hc)) hmethod

/-- What a statement contributed. -/
inductive Gives (kind : DeclarationKind) (p : Pulled) (s : Statement) : Prop
  | type (hk : s.keyword = "type".toList) (h : p.type = some s.value)
  | description (hk : s.keyword = "description".toList) (h : p.description = some s.value)
  | method (hk : methodWords.any fun word => s.keyword == word.toList) (h : p.method = some s.value)
  | setting (hk : kind.settingWords.any fun word => s.keyword == word.toList)
      (h : .labelled s.keyword s.value ∈ p.settings)

theorem Gives.mono {kind : DeclarationKind} {p q : Pulled} {s : Statement} (h : p.Gives kind s)
    (ht : p.type.isNone ∨ q.type = p.type) (hd : p.description.isNone ∨ q.description = p.description)
    (hm : p.method.isNone ∨ q.method = p.method) (hs : ∀ a ∈ p.settings, a ∈ q.settings) :
    q.Gives kind s := by
  have hkeep : ∀ {o o' : Option Text} {v : Text}, o = some v → o.isNone = true ∨ o' = o →
      o' = some v := by
    rintro o o' v rfl (hnone | rfl)
    · cases hnone
    · rfl
  cases h with
  | type hk h => exact .type hk (hkeep h ht)
  | description hk h => exact .description hk (hkeep h hd)
  | method hk h => exact .method hk (hkeep h hm)
  | setting hk h => exact .setting hk (hs _ h)

/-- A statement does nothing, leaves the block with a contribution, or is the first resolver. -/
theorem add_cases (kind : DeclarationKind) (typed described : Bool) (p : Pulled) (r : LineRange)
    (s : Statement) :
    p.add kind typed described r s = p ∨
    (∃ q : Pulled, p.add kind typed described r s = q.take r s ∧ q.removed = p.removed ∧
      q.comments = p.comments ∧ q.resolver = p.resolver ∧ (typed = true → q.type = p.type) ∧
      q.Gives kind s ∧ ∀ s', p.Gives kind s' → q.Gives kind s') ∨
    (s.keyword = "resolve".toList ∧
      p.add kind typed described r s = { p with resolver := some (r, s) }) := by
  have hadds := adds_add kind typed described p r s
  generalize p.add kind typed described r s = q at hadds ⊢
  cases hadds with
  | kept => exact .inl rfl
  | type _ hk htyped hnone =>
    refine .inr (.inl ⟨_, rfl, rfl, rfl, rfl, fun ht => ?_, .type hk rfl, fun s' h => ?_⟩)
    · rw [htyped] at ht
      cases ht
    · exact h.mono (.inl hnone) (.inr rfl) (.inr rfl) fun _ => id
  | description _ hk hnone =>
    exact .inr (.inl ⟨_, rfl, rfl, rfl, rfl, fun _ => rfl, .description hk rfl,
      fun s' h => h.mono (.inr rfl) (.inl hnone) (.inr rfl) fun _ => id⟩)
  | method hk _ hnone =>
    exact .inr (.inl ⟨_, rfl, rfl, rfl, rfl, fun _ => rfl, .method (Bool.and_eq_true_iff.1 hk).2 rfl,
      fun s' h => h.mono (.inr rfl) (.inr rfl) (.inl hnone) fun _ => id⟩)
  | resolver hk => exact .inr (.inr ⟨hk, rfl⟩)
  | setting hk =>
    exact .inr (.inl ⟨_, rfl, rfl, rfl, rfl, fun _ => rfl,
      .setting (Bool.and_eq_true_iff.1 hk).2 (List.mem_append_right _ List.mem_cons_self),
      fun s' h => h.mono (.inr rfl) (.inr rfl) (.inr rfl) fun _ => List.mem_append_left _⟩)

/-- What was collected is accounted for by statements of a block. A type is taken only where the
header has none. -/
structure Sound (kind : DeclarationKind) (typed : Bool) (entries : List (LineRange × Statement))
    (p : Pulled) : Prop where
  removed : ∀ r ∈ p.removed, ∃ s, (r, s) ∈ entries ∧ p.Gives kind s ∧
    ∀ c ∈ s.comments, c ∈ p.comments
  resolver : ∀ entry ∈ p.resolver, entry ∈ entries ∧ entry.2.keyword = "resolve".toList
  untyped : typed = true → p.type = none

theorem Sound.add {kind : DeclarationKind} {typed : Bool} {entries : List (LineRange × Statement)}
    {p : Pulled} (h : p.Sound kind typed entries) (described : Bool) {r : LineRange}
    {s : Statement} (hmem : (r, s) ∈ entries) :
    (p.add kind typed described r s).Sound kind typed entries := by
  rcases add_cases kind typed described p r s with
    heq | ⟨q, heq, hremoved, hcomments, hresolver, htype, hgives, hkeep⟩ | ⟨hk, heq⟩
  · rwa [heq]
  · rw [heq]
    refine ⟨?_, fun entry hentry => h.resolver entry (hresolver ▸ hentry), fun ht => ?_⟩
    · intro r' hr'
      rcases List.mem_append.1 hr' with hr' | hr'
      · rw [hremoved] at hr'
        obtain ⟨s', hs', hg, hc⟩ := h.removed r' hr'
        refine ⟨s', hs', ?_, fun c hmemc => List.mem_append_left _ (hcomments ▸ hc c hmemc)⟩
        exact (hkeep s' hg).mono (.inr rfl) (.inr rfl) (.inr rfl) fun _ => id
      · obtain rfl := List.mem_singleton.1 hr'
        refine ⟨s, hmem, ?_, fun c hmemc => List.mem_append_right _ hmemc⟩
        exact hgives.mono (.inr rfl) (.inr rfl) (.inr rfl) fun _ => id
    · exact (htype ht).trans (h.untyped ht)
  · rw [heq]
    refine ⟨?_, ?_, h.untyped⟩
    · intro r' hr'
      obtain ⟨s', hs', hg, hc⟩ := h.removed r' hr'
      exact ⟨s', hs', hg.mono (.inr rfl) (.inr rfl) (.inr rfl) fun _ => id, hc⟩
    · intro entry hentry
      obtain rfl := Option.some.inj hentry
      exact ⟨hmem, hk⟩

theorem sound_nothing (kind : DeclarationKind) (typed : Bool)
    (entries : List (LineRange × Statement)) : nothing.Sound kind typed entries :=
  ⟨by rintro r ⟨⟩, by rintro entry ⟨⟩, fun _ => rfl⟩

theorem sound_foldl {kind : DeclarationKind} {typed described : Bool}
    {entries rest : List (LineRange × Statement)} (hrest : ∀ entry ∈ rest, entry ∈ entries)
    {p : Pulled} (h : p.Sound kind typed entries) :
    (rest.foldl (fun p entry => p.add kind typed described entry.1 entry.2) p).Sound kind typed
      entries := by
  induction rest generalizing p with
  | nil => exact h
  | cons entry rest ih =>
    exact ih (fun e he => hrest e (List.mem_cons_of_mem entry he))
      (h.add described (hrest entry List.mem_cons_self))

theorem sound_ofStatements (kind : DeclarationKind) (typed described : Bool)
    (statements : List (LineRange × Statement)) :
    (ofStatements kind typed described statements).Sound kind typed statements :=
  sound_foldl (fun _ h => h) (sound_nothing kind typed statements)

end Pulled

/-! ## Where a statement goes -/

/-- Where the value of a statement goes when it leaves the block. -/
inductive Carried (header : Signature) (trailer : List Line) (s : Statement) : Prop
  | type (hk : s.keyword = "type".toList) {t : TypeExpression}
      (ht : TypeExpression.parse s.value = some t) (h : header.positional.head? = some t.render)
  | description (hk : s.keyword = "description".toList) (h : s.value ∈ header.positional)
  | method (hk : methodWords.any fun word => s.keyword == word.toList)
      (h : .labelled "method".toList s.value ∈ header.keywords)
  | setting (h : .labelled s.keyword s.value ∈ header.keywords)
  | resolver (hk : s.keyword = "resolve".toList) {name : Text} {declaresArguments : Bool}
      (h : resolverMethod name s.value header.indent declaresArguments = .ok trailer)

/-- A statement that left the block: its value is in the header or in the method below, and its
comments are in the header. -/
structure Moved (header : Signature) (trailer : List Line) (s : Statement) : Prop where
  value : Carried header trailer s
  comments : ∀ c ∈ s.comments, c ∈ header.comments

/-- The declaration is put together anew, and every statement that left its block has moved. -/
def PassesOn (d : Declaration) (ls : List Line) (new : List Line) : Prop :=
  ∃ (header : Signature) (removed : Removed) (trailer : List Line),
    new = d.rebuilt ls header removed trailer ∧
    ∀ r ∈ removed, ∃ s, (r, s) ∈ d.readStatements ls ∧ Moved header trailer s

section

variable {d : Declaration} {ls new : List Line}

theorem passesOn_plain (header : Signature) (trailer : List Line) :
    d.PassesOn ls (d.rebuilt ls header [] trailer) :=
  ⟨header, [], trailer, rfl, by rintro r ⟨⟩⟩

/-! ## Flattening -/

variable {kind : DeclarationKind} {signature : Signature} {name : Text} {pulled : Pulled}
  {t : TypeExpression} {text : Text} {s : Statement}

/-- What a statement gave stands in the flat header. -/
theorem Pulled.Gives.carried (hg : pulled.Gives kind s)
    (htyped : (headerType signature).isSome = true → pulled.type = none)
    (htext : (headerType signature).or pulled.type = some text)
    (ht : TypeExpression.parse text = some t) (trailer : List Line) :
    Carried (flatSignature kind signature name pulled t) trailer s := by
  cases hg with
  | type hk h =>
    have hnone : headerType signature = none := by
      rw [← Option.not_isSome_iff_eq_none]
      intro hsome
      rw [htyped hsome] at h
      cases h
    rw [hnone, Option.none_or, h] at htext
    obtain rfl := Option.some.inj htext
    exact .type hk ht rfl
  | description hk h =>
    refine .description hk ?_
    show s.value ∈ flatPositional signature pulled t
    simp [flatPositional, h]
  | method hk h =>
    refine .method hk ?_
    have hmethod : KeywordArgument.labelled "method".toList s.value ∈
        (pulled.method.map (KeywordArgument.labelled "method".toList)).toList := by
      rw [h]
      exact List.mem_cons_self
    exact List.mem_append_left _ (List.mem_append_right _ hmethod)
  | setting hk h =>
    exact .setting (List.mem_append_left _ (List.mem_append_left _ (List.mem_append_left _
      (List.mem_append_right _ h))))

/-- Taking `resolve:` out of a header takes nothing else. -/
theorem Carried.removeKeyword {header : Signature} {trailer : List Line}
    (h : Carried header trailer s) (hkey : s.keyword ≠ "resolve".toList) :
    Carried (header.removeKeyword "resolve".toList) trailer s := by
  have hkeep : ∀ a ∈ header.keywords, a.key ≠ "resolve".toList →
      a ∈ (header.removeKeyword "resolve".toList).keywords := by
    intro a ha hne
    exact (List.mem_eraseP_of_neg (by simpa using hne)).2 ha
  cases h with
  | type hk ht h => exact .type hk ht h
  | description hk h => exact .description hk h
  | method hk h =>
    have hmethod : "method".toList ≠ "resolve".toList := by decide
    exact .method hk (hkeep _ h hmethod)
  | setting h => exact .setting (hkeep _ h hkey)
  | resolver hk h => exact absurd hk hkey

theorem Carried.congr {header header' : Signature} {trailer : List Line}
    (h : Carried header trailer s) (hi : header'.indent = header.indent)
    (hp : header'.positional = header.positional) (hk : header'.keywords = header.keywords) :
    Carried header' trailer s := by
  cases h with
  | type hword ht h => exact .type hword ht (hp ▸ h)
  | description hword h => exact .description hword (hp ▸ h)
  | method hword h => exact .method hword (hk ▸ h)
  | setting h => exact .setting (hk ▸ h)
  | resolver hword h => exact .resolver hword (hi ▸ h)

theorem Pulled.Gives.keyword_ne (hg : pulled.Gives kind s) : s.keyword ≠ "resolve".toList := by
  intro hkey
  cases hg with
  | type hk h => exact absurd (hkey.symm.trans hk) (by decide)
  | description hk h => exact absurd (hkey.symm.trans hk) (by decide)
  | method hk h =>
    rw [hkey] at hk
    exact absurd hk (by decide)
  | setting hk h =>
    rw [hkey] at hk
    cases kind <;> exact absurd hk (by decide)

theorem Moved.addComments {header : Signature} {trailer : List Line}
    (h : Moved header trailer s) (comments : List Text) :
    Moved { header with comments := header.comments ++ comments } trailer s :=
  ⟨h.value.congr rfl rfl rfl, fun c hc => List.mem_append_left _ (h.comments c hc)⟩

/-- The statements that were taken out have moved to the flat header. -/
theorem moved_flatSignature
    (hsound : pulled.Sound kind (headerType signature).isSome (d.readStatements ls))
    (htext : (headerType signature).or pulled.type = some text)
    (ht : TypeExpression.parse text = some t) (trailer : List Line) :
    ∀ r ∈ pulled.removed, ∃ s, (r, s) ∈ d.readStatements ls ∧ s.keyword ≠ "resolve".toList ∧
      Moved (flatSignature kind signature name pulled t) trailer s := by
  intro r hr
  obtain ⟨s, hmem, hgives, hcomments⟩ := hsound.removed r hr
  exact ⟨s, hmem, hgives.keyword_ne, hgives.carried hsound.untyped htext ht trailer,
    fun c hc => List.mem_append_right _ (hcomments c hc)⟩

theorem passesOn_flattenTyped (h : d.Placed ls.length) {edit : Edit}
    (hsound : pulled.Sound kind (headerType d.signature).isSome (d.readStatements ls))
    (htext : (headerType d.signature).or pulled.type = some text)
    (ht : TypeExpression.parse text = some t)
    (hedit : flattenTyped kind d ls name pulled t = .ok edit)
    (hnew : edit.replacement = some new) : d.PassesOn ls new := by
  have hmoved : ∀ trailer, ∀ r ∈ pulled.removed, ∃ s, (r, s) ∈ d.readStatements ls ∧
      s.keyword ≠ "resolve".toList ∧ Moved (flatSignature kind d.signature name pulled t) trailer s :=
    moved_flatSignature hsound htext ht
  unfold flattenTyped at hedit
  simp only [bind, Except.bind, pure, Except.pure, h.retains_eq, h.reassemble_eq] at hedit
  split at hedit
  · -- no resolver
    obtain rfl := Except.ok.inj hedit
    obtain rfl := Option.some.inj hnew
    refine ⟨_, _, _, rfl, fun r hr => ?_⟩
    obtain ⟨s, hmem, -, hs⟩ := hmoved [] r hr
    exact ⟨s, hmem, hs⟩
  rename_i resolver hresolver
  split at hedit
  · -- the resolver becomes a method
    rename_i trailer htrailer
    obtain rfl := Except.ok.inj hedit
    obtain rfl := Option.some.inj hnew
    refine ⟨_, _, _, rfl, ?_⟩
    cases hfirst : pulled.resolver with
    | none =>
      simp only [withoutResolver, hfirst]
      intro r hr
      obtain ⟨s, hmem, hkey, hs⟩ := hmoved trailer r hr
      exact ⟨s, hmem, hs.value.removeKeyword hkey, hs.comments⟩
    | some entry =>
      obtain ⟨r₀, s₀⟩ := entry
      obtain ⟨hmem₀, hkey₀⟩ := hsound.resolver _ hfirst
      simp only [withoutResolver, hfirst]
      intro r hr
      rcases List.mem_append.1 hr with hr | hr
      · obtain ⟨s, hmem, -, hs⟩ := hmoved trailer r hr
        exact ⟨s, hmem, hs.addComments s₀.comments⟩
      · obtain rfl := List.mem_singleton.1 hr
        obtain rfl : s₀.value = resolver := by
          simpa [resolverText, hfirst] using hresolver
        split at htrailer
        · exact ⟨s₀, hmem₀, .resolver hkey₀ htrailer, fun c hc => List.mem_append_right _ hc⟩
        · cases htrailer
  · -- the resolver stays in the block
    obtain rfl := Except.ok.inj hedit
    obtain rfl := Option.some.inj hnew
    refine ⟨_, _, _, rfl, fun r hr => ?_⟩
    obtain ⟨s, hmem, -, hs⟩ := hmoved [] r hr
    exact ⟨s, hmem, hs⟩

theorem passesOn_flatten (h : d.Placed ls.length) {edit : Edit}
    (hedit : flatten kind d ls = .ok edit) (hnew : edit.replacement = some new) :
    d.PassesOn ls new := by
  unfold flatten at hedit
  extract_lets s at hedit
  split at hedit
  · obtain rfl := Except.ok.inj hedit
    cases hnew
  split at hedit
  · obtain rfl := Except.ok.inj hedit
    cases hnew
  rw [h.statements_eq] at hedit
  simp only [bind, Except.bind, pure, Except.pure] at hedit
  split at hedit
  · -- no type
    split at hedit
    · obtain rfl := Except.ok.inj hedit
      cases hnew
    · obtain rfl := Except.ok.inj hedit
      cases hnew
  rename_i text htext
  split at hedit
  · obtain rfl := Except.ok.inj hedit
    cases hnew
  rename_i t ht
  exact passesOn_flattenTyped h (Pulled.sound_ofStatements _ _ _ _) htext ht hedit hnew

/-! ## The other revisions -/

/-- A statement that is found is one of the block, with a value and one of the keywords. -/
theorem find_statement {keywords : List String} {r : LineRange}
    (h : ((d.readStatements ls).find? fun entry =>
      keywords.any (fun k => k.toList == entry.2.keyword) && !entry.2.value.isEmpty) =
        some (r, s)) :
    (r, s) ∈ d.readStatements ls ∧ keywords.any (fun word => s.keyword == word.toList) = true := by
  refine ⟨List.mem_of_find?_eq_some h, ?_⟩
  have hp := List.find?_some h
  simp only [Bool.and_eq_true, List.any_eq_true, beq_iff_eq] at hp ⊢
  obtain ⟨⟨word, hword, hk⟩, -⟩ := hp
  exact ⟨word, hword, hk.symm⟩

theorem passesOn_renameProperty (h : d.Placed ls.length) {edit : Edit}
    (hedit : renameProperty d ls = .ok edit) (hnew : edit.replacement = some new) :
    d.PassesOn ls new := by
  unfold renameProperty at hedit
  extract_lets property method renamed signature keepOrReplace at hedit
  have hkeep : keepOrReplace = .ok edit → d.PassesOn ls new := by
    intro hkeep
    simp only [keepOrReplace] at hkeep
    split at hkeep
    · rw [h.reassemble_eq] at hkeep
      obtain rfl := Except.ok.inj hkeep
      obtain rfl := Option.some.inj hnew
      exact passesOn_plain _ []
    · obtain rfl := Except.ok.inj hkeep
      cases hnew
  split at hedit
  · exact hkeep hedit
  rw [h.findStatement_eq] at hedit
  simp only [bind, Except.bind] at hedit
  split at hedit
  · exact hkeep hedit
  rename_i r s hfind
  obtain ⟨hmem, hk⟩ := find_statement hfind
  rw [h.reassemble_eq] at hedit
  obtain rfl := Except.ok.inj hedit
  obtain rfl := Option.some.inj hnew
  refine ⟨_, _, _, rfl, fun r' hr' => ?_⟩
  obtain rfl := List.mem_singleton.1 hr'
  exact ⟨s, hmem, .method hk (List.mem_append_right _ List.mem_cons_self),
    fun c hc => List.mem_append_right _ hc⟩

theorem passesOn_moveResolver (h : d.Placed ls.length) {edit : Edit}
    (hedit : moveResolver d ls = .ok edit) (hnew : edit.replacement = some new) :
    d.PassesOn ls new := by
  unfold moveResolver at hedit
  rw [h.findStatement_eq] at hedit
  simp only [bind, Except.bind, pure, Except.pure, h.retains_eq, h.reassemble_eq] at hedit
  split at hedit
  · obtain rfl := Except.ok.inj hedit
    cases hnew
  rename_i resolver hresolver
  split at hedit
  · obtain rfl := Except.ok.inj hedit
    cases hnew
  split at hedit
  · obtain rfl := Except.ok.inj hedit
    cases hnew
  rename_i trailer htrailer
  split at hedit
  · rename_i r s hfind
    obtain ⟨hmem, hk⟩ := find_statement hfind
    obtain rfl := Except.ok.inj hedit
    obtain rfl := Option.some.inj hnew
    refine ⟨_, _, _, rfl, fun r' hr' => ?_⟩
    obtain rfl := List.mem_singleton.1 hr'
    rw [hfind] at hresolver
    obtain rfl : s.value = resolver := Option.some.inj hresolver
    exact ⟨s, hmem, .resolver (by simpa using hk) htrailer, fun c hc => List.mem_append_right _ hc⟩
  · obtain rfl := Except.ok.inj hedit
    obtain rfl := Option.some.inj hnew
    exact passesOn_plain _ trailer

/-- Every rule that edits declarations passes on what it takes out of their blocks. -/
theorem passesOn_of_mem_editors {e : Editor} (he : e ∈ editors) (h : d.Placed ls.length)
    {edit : Edit} (hedit : e.revise d ls = .ok edit) (hnew : edit.replacement = some new) :
    d.PassesOn ls new := by
  rcases editors_cases he with ⟨kind, rfl⟩ | rfl | rfl
  · exact passesOn_flatten h hedit hnew
  · exact passesOn_renameProperty h hedit hnew
  · exact passesOn_moveResolver h hedit hnew

end

end Declaration

end SchemaLift
