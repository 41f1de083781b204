import SchemaLift.Proofs.Call.Comments
import SchemaLift.Proofs.Declaration.Taken
import SchemaLift.Proofs.Name
import SchemaLift.Proofs.Type.Render

/-!
# The comments of a rewritten declaration

The comments of the old header and those behind the statements that leave the block go behind the new
header, once each. Two things are not that even: a comment inside an argument or a resolver comes again
with it, and what stands in front of the last code of a statement or beside the `end` of a block goes with
it. So a declaration keeps its comments exactly if as much is copied as is dropped (`notes_rewrite`).
-/

namespace SchemaLift

theorem TypeExpression.closed_render {s : Text} {t : TypeExpression} (h : parse s = some t) :
    Closed t.render := by
  have hbase : Base t.base := (ofTokens_spec h).2.2 (worded_tokenizeCode s)
  have hplain : ∀ c ∈ ['"', '\'', '#', '\n'], (!(isTokenChar c || c == ' ')) = true :=
    List.all_eq_true.1 (by decide)
  have hrender : Plain t.render := by
    intro c hc hmem
    have hno := hplain c hmem
    rcases isTokenChar_render hbase c hc with h | h <;> simp [h] at hno
  exact hrender.carries.closed

theorem Name.plain_of_declared? {raw name : Text} (h : declared? raw = some name) : Plain name :=
  plain_of_forall_mem fun _ => mem_declared? h

namespace Declaration

/-! ## New headers -/

/-- What was collected is closed. -/
structure Pulled.Joinable (p : Pulled) : Prop where
  description : ∀ t ∈ p.description, Closed t
  method : ∀ t ∈ p.method, Closed t
  settings : ∀ a ∈ p.settings, a.Joinable

section

variable {kind : DeclarationKind} {d : Declaration} {ls : List Line}

theorem Pulled.Joinable.add {p : Pulled} (h : p.Joinable) (typed described : Bool) (r : LineRange)
    {s : Statement} (hvalue : Closed s.value) : (p.add kind typed described r s).Joinable := by
  have hwords : ∀ word ∈ kind.settingWords, Plain word.toList := by cases kind <;> decide
  have hnew : ∀ t ∈ some s.value, Closed t := by
    intro t ht
    obtain rfl := Option.some.inj ht
    exact hvalue
  have hadds := adds_add kind typed described p r s
  generalize p.add kind typed described r s = q at hadds ⊢
  cases hadds with
  | kept => exact h
  | type => exact ⟨h.description, h.method, h.settings⟩
  | description => exact ⟨hnew, h.method, h.settings⟩
  | method => exact ⟨h.description, hnew, h.settings⟩
  | resolver => exact ⟨h.description, h.method, h.settings⟩
  | setting hk =>
    obtain ⟨word, hword, hkey⟩ := Statement.exists_of_offers hk
    refine ⟨h.description, h.method, fun a ha => ?_⟩
    rcases List.mem_append.1 ha with ha | ha
    · exact h.settings a ha
    · obtain rfl := List.mem_singleton.1 ha
      rw [hkey]
      exact KeywordArgument.joinable_labelled (hwords word hword) hvalue

variable (hvalues : ∀ entry ∈ d.readStatements ls, Closed entry.2.value)
include hvalues

theorem joinable_pulled : (d.pulled ls kind).Joinable := by
  have hfold : ∀ (entries : List (LineRange × Statement)) (p : Pulled) (typed described : Bool),
      (∀ entry ∈ entries, Closed entry.2.value) → p.Joinable →
      (entries.foldl (fun p entry => p.add kind typed described entry.1 entry.2) p).Joinable := by
    intro entries p typed described hclosed hp
    induction entries generalizing p with
    | nil => exact hp
    | cons entry rest ih =>
      obtain ⟨hentry, hrest⟩ := List.forall_mem_cons.1 hclosed
      exact ih _ hrest (hp.add typed described entry.1 hentry)
  exact hfold _ _ _ _ hvalues ⟨by rintro t ⟨⟩, by rintro t ⟨⟩, by rintro a ⟨⟩⟩

theorem closed_of_statement? {keywords : List String} {entry : LineRange × Statement}
    (h : d.statement? ls keywords = some entry) : Closed entry.2.value :=
  hvalues entry (List.mem_of_find?_eq_some h)

variable (hsignature : d.signature.Joinable)
include hsignature

theorem joinable_flatSignature {name text : Text} {t : TypeExpression}
    (hname : d.signature.name = some name) (ht : TypeExpression.parse text = some t) :
    (flatSignature kind d.signature name (d.pulled ls kind) t).Joinable := by
  have hpulled : (d.pulled ls kind).Joinable := joinable_pulled hvalues
  have hkeys : ∀ key ∈ [kind.nullabilityKey, "method", "connection"], Plain key.toList := by
    cases kind <;> decide
  have htruth : ∀ b : Bool, Closed (toString b).toList := by
    rintro (_ | _) <;> exact Plain.carries (by decide) |>.closed
  have hlabelled : ∀ key ∈ [kind.nullabilityKey, "method", "connection"], ∀ value, Closed value →
      (KeywordArgument.labelled key.toList value).Joinable := fun key hkey value =>
    KeywordArgument.joinable_labelled (hkeys key hkey)
  refine ⟨headed_flatSignature hsignature.headed kind name _ t, ?_, ?_, ?_, hsignature.block⟩
  · intro n hn
    obtain rfl := Option.some.inj hn
    cases hdeclared : Name.declared? name with
    | none => exact hsignature.name name hname
    | some method =>
      have hcolon : Plain [':'] := by decide
      exact (hcolon.append (Name.plain_of_declared? hdeclared)).carries.closed
  · intro p hp
    rcases List.mem_cons.1 hp with rfl | hp
    · exact TypeExpression.closed_render ht
    rcases List.mem_append.1 hp with hp | hp
    · exact hpulled.description p (Option.mem_toList.1 hp)
    · split at hp
      · exact hsignature.positional p (List.mem_of_mem_tail hp)
      · exact hsignature.positional p hp
  · intro a ha
    simp only [flatSignature, flatKeywords, List.mem_append, or_assoc] at ha
    rcases ha with ha | ha | ha | ha | ha
    · exact hsignature.keywords a ha
    · exact hpulled.settings a ha
    · obtain rfl := List.mem_singleton.1 ha
      exact hlabelled _ (by simp) _ (htruth _)
    · obtain ⟨value, hvalue, rfl⟩ := Option.map_eq_some_iff.1 (Option.mem_toList.1 ha)
      exact hlabelled _ (by simp) _ (hpulled.method value hvalue)
    · split at ha
      · obtain rfl := List.mem_singleton.1 ha
        exact hlabelled _ (by simp) _ (htruth true)
      · cases ha

/-- **The new header holds closed texts only**, if the old one does and so do the statements. -/
theorem joinable_header {rule : Rule} {r : Rewrite} (h : d.rewrite? ls rule = some r) :
    r.header.Joinable := by
  have hmethod : Plain "method".toList := by decide
  have hrenamed := hsignature.renameKeyword "property".toList hmethod
  cases made_of_rewrite? h with
  | flat hname _ ht => exact joinable_flatSignature hvalues hsignature hname ht
  | flatStatement hname _ ht => exact (joinable_flatSignature hvalues hsignature hname ht).withComments _
  | flatArgument _ hname _ ht => exact (joinable_flatSignature hvalues hsignature hname ht).removeKeyword _
  | renamed => exact hrenamed
  | pushed hentry =>
    exact (hrenamed.pushKeyword hmethod (closed_of_statement? hvalues hentry)).withComments _
  | movedStatement => exact hsignature.withComments _
  | movedArgument => exact hsignature.removeKeyword _

end

/-! ## The ledger -/

/-- The remarks that a rewritten declaration has besides those behind its header: those in its
arguments and in the method below. -/
def Rewrite.copied (r : Rewrite) (d : Declaration) (ls : List Line) : Multiset Text :=
  ((newHeader r.header (d.staying ls r.removed)).texts.map noted).sum + (r.trailer.map notes).sum

/-- The remarks that go with a declaration's old lines: those in front of the last code of a statement
that leaves the block, and those beside the end of a block that goes. -/
def Rewrite.dropped (r : Rewrite) (d : Declaration) (ls : List Line) : Multiset Text :=
  (r.removed.map fun range =>
      remarksOf (innerComments (Lines.extent ls range.first range.last))).sum +
    ((d.dissolved ls r.removed).map notes).sum

section

variable {d : Declaration} {ls : List Line} {r : Rewrite} {taken : List (LineRange × Statement)}

/-- The remarks on the lines of a range are those of its text. -/
theorem sum_notes_extent (hls : ∀ line ∈ ls, Tidy line) (first last : Nat) :
    (((ls.drop first).take (last + 1 - first)).map notes).sum = noted (Lines.extent ls first last) :=
  (noted_unlines fun line hline =>
    hls line (List.mem_of_mem_drop (List.mem_of_mem_take hline))).symm

/-- The remarks on the lines that go: those in front of the last code of each statement, and those that
it keeps. -/
theorem sum_notes_takenLines (hls : ∀ line ∈ ls, Tidy line) (hplaced : d.Placed ls.length)
    (hchildren : d.children.Pairwise fun a b => a.last < b.first) (h : r.Takes d ls taken) :
    ((d.takenLines ls r.removed).map notes).sum =
      (r.removed.map fun range =>
        remarksOf (innerComments (Lines.extent ls range.first range.last))).sum +
      remarksOf (taken.flatMap (·.2.comments)) := by
  have hentries : ∀ entry ∈ taken, noted (Lines.extent ls entry.1.first entry.1.last) =
      remarksOf (innerComments (Lines.extent ls entry.1.first entry.1.last)) +
        remarksOf entry.2.comments := fun entry hentry =>
    Statement.noted_of_parse (statement_of_mem_readStatements (h.subperm.subset hentry))
  have hlines := h.sum_takenLines notes hplaced hchildren
  simp only [sum_notes_extent hls] at hlines
  rw [hlines, remarksOf_flatMap, h.removed, List.map_map, List.map_map, ← List.sum_map_add]
  exact congrArg List.sum (List.map_congr_left hentries)

/-- The header that comes can be put together, comments and all. -/
theorem joinable_newHeader {rule : Rule} (hls : ∀ line ∈ ls, Tidy line)
    (hparse : Signature.parse (Lines.extent ls d.start d.headerEnd) = some d.signature)
    (hvalues : ∀ entry ∈ d.readStatements ls, Closed entry.2.value) (hr : d.rewrite? ls rule = some r)
    (body : List Line) : (newHeader r.header body).Joinable ∧
      (newHeader r.header body).comments = r.header.comments ∧ ∀ c ∈ r.header.comments, IsComment c := by
  obtain ⟨taken, htaken⟩ := exists_takes hr
  have hextent : Tidy (Lines.extent ls d.start d.headerEnd) :=
    .unlines fun line hline => hls line (List.mem_of_mem_drop (List.mem_of_mem_take hline))
  have hheader := joinable_header hvalues (Signature.joinable_of_parse hextent hparse) hr
  have hcomments : ∀ c ∈ r.header.comments, IsComment c := by
    intro c hc
    rw [htaken.comments, Signature.comments_of_parse hparse] at hc
    rcases List.mem_append.1 hc with hc | hc
    · exact isComment_of_mem_comments hc
    · obtain ⟨entry, hentry, hc⟩ := List.mem_flatMap.1 hc
      have hs := statement_of_mem_readStatements (htaken.subperm.subset hentry)
      exact Statement.isComment_of_parse hs c hc
  unfold newHeader
  split
  · exact ⟨hheader.withoutBlock, rfl, hcomments⟩
  · exact ⟨hheader, rfl, hcomments⟩

/-- **What a rewritten declaration does to comments.** The new lines and what is dropped have the remarks
of the old lines and of what is copied. -/
theorem notes_rewrite {rule : Rule} (hls : ∀ line ∈ ls, '\n' ∉ line ∧ QuotesInTokens line)
    (hplaced : d.Placed ls.length)
    (hparse : Signature.parse (Lines.extent ls d.start d.headerEnd) = some d.signature)
    (hchildren : d.children.Pairwise fun a b => a.last < b.first)
    (hvalues : ∀ entry ∈ d.readStatements ls, Closed entry.2.value)
    (hr : d.rewrite? ls rule = some r) :
    ((r.lines d ls).map notes).sum + r.dropped d ls =
      ((d.ownLines ls).map notes).sum + r.copied d ls := by
  have htidy : ∀ line ∈ ls, Tidy line := fun line hline =>
    .of_line (hls line hline).2 (hls line hline).1
  have hblank : ∀ line ∈ ls, Text.isBlank line = true → notes line = 0 := fun line hline hb => by
    rw [notes_of_line (hls line hline).1, noted_of_isBlank hb]
  obtain ⟨taken, htaken⟩ := exists_takes hr
  obtain ⟨hjoinable, hkept, hcomments⟩ :=
    joinable_newHeader htidy hparse hvalues hr (d.staying ls r.removed)
  have hrender := hjoinable.notes_render (by rw [hkept]; exact hcomments)
  have hhead : ((d.headLines ls).map notes).sum = remarksOf d.signature.comments := by
    rw [Signature.comments_of_parse hparse, headLines, sum_notes_extent htidy]
    rfl
  have hsum := sum_rebuilt (f := notes) rfl hblank hplaced r.header r.removed r.trailer
  rw [hhead, sum_notes_takenLines htidy hplaced hchildren htaken, hrender, hkept, htaken.comments,
    remarksOf_append] at hsum
  unfold Rewrite.lines Rewrite.dropped Rewrite.copied
  -- the remarks that the header keeps stand on both sides of `hsum`
  apply add_right_cancel (b := remarksOf d.signature.comments +
    remarksOf (taken.flatMap (·.2.comments)))
  calc _ = _ := by abel
    _ = _ := hsum
    _ = _ := by abel

end

end Declaration

end SchemaLift
